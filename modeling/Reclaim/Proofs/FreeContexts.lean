import Reclaim.Proofs.ConfinedSteps

/-!
Where a destructor can run, no operation is at work on a context: a step that borrows the context
of its thread gives it back (`Run.Reaches.free`). So what a destructor does gets the context it
needs.
-/

set_option autoImplicit false

namespace Reclaim
variable {V : Type}

theorem World.thread_enrol (w : World V) (t t' : ThreadId) :
    (w.enrol t).thread t' = w.thread t' := by
  refine (w.thread_insert t _ t').trans ?_
  split
  · rename_i ht'
    rw [ht']
  · rfl

/-- A thread that is told something has not done it yet, but may have begun its end. -/
theorem World.thread_begin (w : World V) (i : Instruction V) (t : ThreadId) :
    ((w.begin i).world.thread t).presence = (w.thread t).presence ∧
      (((w.begin i).world.thread t).phase = .running → (w.thread t).phase = .running) := by
  obtain ⟨t', command⟩ := i
  have hsame {w' : World V} (hthreads : w'.threads = (w.enrol t').threads) :
      (w'.thread t).presence = (w.thread t).presence ∧
        ((w'.thread t).phase = .running → (w.thread t).phase = .running) := by
    have hthread : w'.thread t = w.thread t := by
      rw [← w.thread_enrol t' t, World.thread, hthreads]
      rfl
    rw [hthread]
    exact ⟨rfl, id⟩
  cases command with
  | perform | retireNull => exact hsame rfl
  | dropQueue name =>
    unfold World.begin World.start
    dsimp only
    split <;> exact hsame rfl
  | atExit acts =>
    change (((w.enrol t').addExitActs t' acts).thread t).presence = _ ∧
      ((((w.enrol t').addExitActs t' acts).thread t).phase = _ → _)
    rw [World.thread_addExitActs]
    split
    · rename_i ht
      subst ht
      exact hsame rfl
    · exact hsame rfl
  | exit byPanic =>
    change (((w.enrol t').setPhase t' .exiting).thread t).presence = _ ∧
      ((((w.enrol t').setPhase t' .exiting).thread t).phase = _ → _)
    rw [World.presence_setPhase, World.thread_setPhase]
    refine ⟨(hsame rfl).1, ?_⟩
    split
    · exact Phase.noConfusion
    · exact (hsame rfl).2

/-- A property of the context of a thread that operations and the end of the thread keep. -/
structure Presence.Kept (P : Presence → Prop) : Prop where
  destroyed : P .destroyed
  confined : ∀ {s s' : Site}, s.Confined s' → P s.presence → P s'.presence

section kept
variable {P : Presence → Prop} (hP : Presence.Kept P) {w w' : World V} {t t' : ThreadId}
  {fs : List (Frame V)} {c : Control V}
include hP

theorem World.Confined.kept (hw : w.Confined t w') (h : P (w.thread t').presence) :
    P (w'.thread t').presence := by
  by_cases ht' : t' = t
  · subst ht'
    exact hP.confined hw.site h
  · rw [hw.others t' ht']
    exact h

/-- The frames that end a thread or a queue leave contexts alone, or destroy one. -/
theorem Proceeds.kept {f : Frame V} (hf : Proceeds t w f w' fs c) (h : P (w.thread t').presence) :
    P (w'.thread t').presence := by
  cases hfinal : f.isFinal with
  | false => exact (hf.confined hfinal).1.kept hP h
  | true =>
    cases hf with
    | chainOver | chainStrays | stays => exact h
    | frees i a n w₁ fs _ hempties => cases hempties <;> exact h
    | leaves rs b s hleave =>
      rw [World.thread_setSite]
      split
      · exact (Site.leave_destroyed hleave).symm ▸ hP.destroyed
      · exact h
    | exits =>
      rw [World.presence_setPhase]
      exact h
    | _ => cases hfinal

theorem Transition.kept {cue : Cue V} (hstep : Transition t w cue w' fs c)
    (h : P (w.thread t').presence) : P (w'.thread t').presence := by
  cases hstep with
  | performs hop => exact hop.confined.1.kept hP h
  | proceeds hf => exact hf.kept hP h
  | acted | catches | passesOn | passesThrough => exact h
  | releases => exact (World.Confined.dropHazard rfl).kept hP h

theorem Run.Reaches.kept (habsent : P .absent) {Q : Run V → Prop} {m : Run V}
    (h : Reaches Q idle m) (t : ThreadId) : P (m.world.thread t).presence := by
  induction h with
  | refl => exact habsent
  | @step n _ _ ih =>
    rcases n.step_cases with hsame | ⟨cue, rest, -, -, -, fs, -, htransition⟩
    · rwa [hsame]
    · exact htransition.kept hP ih
  | next i _ _ _ _ ih => rwa [(World.thread_begin _ i t).1]

end kept

theorem World.kept_hasContext : Presence.Kept (· ≠ .absent) :=
  ⟨Presence.noConfusion, fun hs h habsent => h (hs.entered habsent)⟩

def World.Free (w : World V) : Prop := ∀ t, (w.thread t).presence.IsFree

/-- Contexts are free wherever a run comes to, with destructors at work or not. -/
theorem Run.Reaches.free {Q : Run V → Prop} {m : Run V} (h : Reaches Q idle m) : m.world.Free :=
  h.kept ⟨fun _ => Presence.noConfusion, Site.Confined.free⟩ fun _ => Presence.noConfusion

end Reclaim
