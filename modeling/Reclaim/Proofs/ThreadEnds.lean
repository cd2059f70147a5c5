import Reclaim.Proofs.FreeContexts

/-!
How threads end. Without a panic the end of a thread comes to its own end: the context is destroyed
on the way, so a thread that has ended has no bag, and a thread that has not begun its end can
still get one (`Run.Reaches.orderly`).
-/

set_option autoImplicit false

namespace Reclaim
variable {V : Type}

def Frame.endsThread : Frame V → Bool
  | .leave | .finishExit _ => true
  | _ => false

theorem Frame.endsThread_of_isFinal {fs : List (Frame V)} (h : fs.any isFinal = false) :
    fs.any endsThread = false := by
  rw [List.any_eq_false] at h ⊢
  intro f hf he
  refine h f hf ?_
  cases f <;> first | rfl | cases he

namespace Run

inductive Ending (m : Run V) : Prop where
  | notBegun : (m.world.thread m.thread).phase = .running → m.stack.any Frame.endsThread = false →
      Ending m
  | leaves (fs : List (Frame V)) (acts : List (Act V)) (byPanic : Bool) :
      (m.world.thread m.thread).phase = .exiting →
      m.stack = fs ++ [.leave, .script acts, .leave, .finishExit byPanic] →
      fs.any Frame.isFinal = false → Ending m
  /-- The acts at the end may create a context once more. -/
  | acts (fs : List (Frame V)) (byPanic : Bool) : (m.world.thread m.thread).phase = .exiting →
      m.stack = fs ++ [.leave, .finishExit byPanic] → fs.any Frame.isFinal = false → Ending m
  | reclaims (fs : List (Frame V)) (byPanic : Bool) : (m.world.thread m.thread).phase = .exiting →
      m.stack = fs ++ [.finishExit byPanic] → fs.any Frame.isFinal = false →
      (m.world.thread m.thread).presence = .destroyed → Ending m
  /-- There was no context to destroy. -/
  | finishes (byPanic : Bool) : (m.world.thread m.thread).phase = .exiting →
      m.stack = [.finishExit byPanic] → m.control = .resume →
      (m.world.thread m.thread).presence.records = [] → Ending m
  | ended : (m.world.thread m.thread).phase = .exited → m.outcome.isSome = true → Ending m

end Run

theorem World.domain_begin (w : World V) (i : Instruction V) :
    (w.begin i).world.domain = w.domain := by
  obtain ⟨t, command⟩ := i
  cases command with
  | dropQueue name =>
    unfold World.begin World.start
    dsimp only
    split <;> rfl
  | perform | exit | atExit | retireNull => rfl

structure World.Orderly (w : World V) : Prop where
  running : ∀ t, (w.thread t).phase = .running → (w.thread t).presence ≠ .destroyed
  exited : ∀ t, (w.thread t).phase = .exited → (w.thread t).presence.records = []

namespace World.Orderly
variable {w w' : World V} {t : ThreadId}

theorem confined (h : w.Orderly) (ht : (w.thread t).phase ≠ .exited) (hw : w.Confined t w') :
    w'.Orderly := by
  refine ⟨fun t' hphase => ?_, fun t' hphase => ?_⟩ <;> rw [hw.phases] at hphase
  · by_cases ht' : t' = t
    · subst ht'
      exact fun hdestroyed => h.running t' hphase (hw.site.destroyed.1 hdestroyed)
    · rw [hw.others t' ht']
      exact h.running t' hphase
  · have ht' : t' ≠ t := fun he => ht (he ▸ hphase)
    rw [hw.others t' ht']
    exact h.exited t' hphase

/-- One thread changes. -/
theorem insert (h : w.Orderly) {th : Thread V} (hthreads : w'.threads = w.threads.insert t th)
    (hrunning : th.phase = .running → th.presence ≠ .destroyed)
    (hexited : th.phase = .exited → th.presence.records = []) : w'.Orderly := by
  have hthread (t' : ThreadId) : w'.thread t' = if t' = t then th else w.thread t' := by
    rw [← w.thread_insert t th t', thread, hthreads]
    rfl
  refine ⟨fun t' hphase => ?_, fun t' hphase => ?_⟩ <;> rw [hthread] at hphase ⊢ <;>
    split at hphase
  · rw [if_pos ‹_›]
    exact hrunning hphase
  · rw [if_neg ‹_›]
    exact h.running t' hphase
  · rw [if_pos ‹_›]
    exact hexited hphase
  · rw [if_neg ‹_›]
    exact h.exited t' hphase

end World.Orderly

namespace Run

structure Orderly (m : Run V) : Prop where
  world : m.world.Orderly
  exiting : ∀ t, (m.world.thread t).phase = .exiting → t = m.thread
  ending : m.Ending

theorem leave_cases (m : Run V) :
    ((m.world.thread m.thread).presence.records = [] ∧ m.leave = m.resume) ∨
      ∃ rs bag s, m.leave = (((m.setSite s).push (.abandonRest bag)).push (.reclaim rs)).resume ∧
        s.presence = .destroyed := by
  unfold leave Site.leave
  cases hp : m.site.presence with
  | live c | borrowed c => exact .inr ⟨_, _, _, rfl, rfl⟩
  | absent | destroyed =>
    refine .inl ⟨?_, rfl⟩
    rw [show (m.world.thread m.thread).presence = _ from hp]
    rfl

theorem step_of_outcome {m : Run V} (h : m.outcome.isSome = true) : m.step = m := by
  obtain ⟨w, t, stack, control⟩ := m
  cases stack with
  | nil => cases control <;> first | rfl | cases h
  | cons f rest => cases h

/-- The innermost frame is the first of those that end the thread. -/
theorem eq_of_isFinal {fs tail rest : List (Frame V)} {f g : Frame V}
    (hstack : f :: rest = fs ++ g :: tail) (hfs : fs.any Frame.isFinal = false)
    (hf : f.isFinal = true) : f = g ∧ rest = tail := by
  cases fs with
  | nil => exact List.cons.inj hstack
  | cons f' fs =>
    obtain ⟨rfl, -⟩ := List.cons.inj hstack
    rw [List.any_cons, hf] at hfs
    cases hfs

theorem eq_append_of_not_final {fs tail rest : List (Frame V)} {f g : Frame V}
    (hstack : f :: rest = fs ++ g :: tail) (hfs : fs.any Frame.isFinal = false)
    (hg : g.isFinal = true) (hf : f.isFinal = false) :
    ∃ fs', rest = fs' ++ g :: tail ∧ fs'.any Frame.isFinal = false := by
  cases fs with
  | nil =>
    obtain ⟨rfl, -⟩ := List.cons.inj hstack
    rw [hg] at hf
    cases hf
  | cons f' fs =>
    obtain ⟨-, rfl⟩ := List.cons.inj hstack
    rw [List.any_cons, Bool.or_eq_false_iff] at hfs
    exact ⟨fs, rfl, hfs.2⟩

namespace Ending
variable {m n : Run V}

theorem pop (h : m.Ending) {f : Frame V} {rest : List (Frame V)} (hstack : m.stack = f :: rest)
    (hf : f.isFinal = false) : Ending { m with stack := rest } := by
  cases h with
  | notBegun hphase hplain =>
    rw [hstack, List.any_cons, Bool.or_eq_false_iff] at hplain
    exact .notBegun hphase hplain.2
  | leaves fs acts b hphase hs hfs =>
    obtain ⟨fs', hrest, hfs'⟩ := eq_append_of_not_final (hstack.symm.trans hs) hfs rfl hf
    exact .leaves fs' acts b hphase hrest hfs'
  | acts fs b hphase hs hfs =>
    obtain ⟨fs', hrest, hfs'⟩ := eq_append_of_not_final (hstack.symm.trans hs) hfs rfl hf
    exact .acts fs' b hphase hrest hfs'
  | reclaims fs b hphase hs hfs hgone =>
    obtain ⟨fs', hrest, hfs'⟩ := eq_append_of_not_final (hstack.symm.trans hs) hfs rfl hf
    exact .reclaims fs' b hphase hrest hfs' hgone
  | finishes b hphase hs =>
    obtain ⟨rfl, -⟩ := List.cons.inj (hstack.symm.trans hs)
    cases hf
  | ended hphase hout =>
    rw [stack_of_outcome hout] at hstack
    cases hstack

/-- What is known when nothing but the end of the thread is suspended. -/
theorem at_finish (h : m.Ending) (gs : List (Frame V)) {b : Bool}
    (hstack : m.stack = gs ++ [.finishExit b]) (hgs : gs.any Frame.isFinal = false) :
    (m.world.thread m.thread).presence = .destroyed ∨
      gs = [] ∧ m.control = .resume ∧ (m.world.thread m.thread).presence.records = [] := by
  -- the last two frames decide
  have hlast (fs : List (Frame V)) (f : Frame V) (b' : Bool) (hf : f.isFinal = true)
      (hs : m.stack = fs ++ [f, .finishExit b']) : False := by
    have hboth : gs ++ [.finishExit b] = (fs ++ [f]) ++ [.finishExit b'] := by
      rw [← hstack, hs, List.append_assoc]
      rfl
    have hinit : gs = fs ++ [f] := List.append_inj_left' hboth rfl
    rw [hinit, List.any_append, Bool.or_eq_false_iff, List.any_cons, hf] at hgs
    cases hgs.2
  cases h with
  | notBegun _ hplain =>
    rw [hstack, List.any_append, Bool.or_eq_false_iff] at hplain
    cases hplain.2
  | leaves fs acts b' _ hs =>
    refine (hlast (fs ++ [.leave, .script acts]) .leave b' rfl ?_).elim
    rw [hs, List.append_assoc]
    rfl
  | acts fs b' _ hs => exact (hlast _ _ _ rfl hs).elim
  | reclaims fs b' _ _ _ hgone => exact .inl hgone
  | finishes b' _ hs hcontrol hnone =>
    have hboth : gs ++ [.finishExit b] = [] ++ [.finishExit b'] := hstack.symm.trans hs
    exact .inr ⟨List.append_inj_left' hboth rfl, hcontrol, hnone⟩
  | ended _ hout =>
    rw [stack_of_outcome hout] at hstack
    exact absurd hstack.symm (List.append_ne_nil_of_right_ne_nil gs (List.cons_ne_nil _ _))

/-- Work on top of the suspended frames does not get to the end of the thread. -/
theorem confined (h : m.Ending) (hc : m.Confined n)
    (hfinishes : ∀ b, m.stack = [.finishExit b] →
      (m.world.thread m.thread).presence = .destroyed)
    (hover : (m.world.thread m.thread).phase ≠ .exited) : n.Ending := by
  obtain ⟨gs, hgs, hplain⟩ := hc.stack
  have hphase {p : Phase} (hp : (m.world.thread m.thread).phase = p) :
      (n.world.thread n.thread).phase = p := by
    rw [hc.thread, hc.world.phases]
    exact hp
  have hany {fs : List (Frame V)} (hfs : fs.any Frame.isFinal = false) :
      (gs ++ fs).any Frame.isFinal = false := by
    rw [List.any_append, hplain, hfs]
    rfl
  cases h with
  | notBegun hp hs =>
    refine .notBegun (hphase hp) ?_
    rw [hgs, List.any_append, Frame.endsThread_of_isFinal hplain, hs]
    rfl
  | leaves fs acts b hp hs hfs =>
    exact .leaves (gs ++ fs) acts b (hphase hp) (by rw [hgs, hs, List.append_assoc]) (hany hfs)
  | acts fs b hp hs hfs =>
    exact .acts (gs ++ fs) b (hphase hp) (by rw [hgs, hs, List.append_assoc]) (hany hfs)
  | reclaims fs b hp hs hfs hgone =>
    refine .reclaims (gs ++ fs) b (hphase hp) (by rw [hgs, hs, List.append_assoc]) (hany hfs) ?_
    rw [hc.thread]
    exact hc.world.site.destroyed.2 hgone
  | finishes b hp hs =>
    refine .reclaims gs b (hphase hp) (by rw [hgs, hs]) hplain ?_
    rw [hc.thread]
    exact hc.world.site.destroyed.2 (hfinishes b hs)
  | ended hp => exact absurd hp hover

end Ending

theorem Orderly.confined {m n : Run V} (hm : m.Orderly) (hc : m.Confined n)
    (hfinishes : ∀ b, m.stack = [.finishExit b] →
      (m.world.thread m.thread).presence = .destroyed)
    (hover : (m.world.thread m.thread).phase ≠ .exited) : n.Orderly := by
  refine ⟨hm.world.confined hover hc.world, fun t ht => ?_,
    hm.ending.confined hc hfinishes hover⟩
  rw [hc.world.phases] at ht
  rw [hc.thread]
  exact hm.exiting t ht

theorem dropChain_frames (m : Run V) (queue : QueueId) (next : Option Address) :
    (m.dropChain queue next).thread = m.thread ∧
      (m.dropChain queue next).world.threads = m.world.threads ∧
      ∃ fs, (m.dropChain queue next).stack = fs ++ m.stack ∧ fs.any Frame.endsThread = false := by
  unfold dropChain
  split
  · exact ⟨rfl, rfl, [], rfl, rfl⟩
  · split
    · exact ⟨rfl, rfl, [], rfl, rfl⟩
    · unfold dropSlot
      split
      · exact ⟨rfl, rfl, [_], rfl, rfl⟩
      · exact ⟨rfl, rfl, [_, _], rfl, rfl⟩

section final
variable {m : Run V} (hw : m.world.Orderly)
  (hone : ∀ t, (m.world.thread t).phase = .exiting → t = m.thread)
include hw hone

theorem dropChain_orderly (hphase : (m.world.thread m.thread).phase = .running)
    (hplain : m.stack.any Frame.endsThread = false) (queue : QueueId) (next : Option Address) :
    (m.dropChain queue next).Orderly := by
  obtain ⟨hthread, hthreads, fs, hstack, hfs⟩ := m.dropChain_frames queue next
  have hsame (t : ThreadId) : (m.dropChain queue next).world.thread t = m.world.thread t := by
    rw [World.thread, hthreads]
    rfl
  refine ⟨⟨fun t => ?_, fun t => ?_⟩, fun t => ?_, .notBegun ?_ ?_⟩
  · rw [hsame]
    exact hw.running t
  · rw [hsame]
    exact hw.exited t
  · rw [hsame, hthread]
    exact hone t
  · rw [hsame, hthread]
    exact hphase
  · rw [hstack, List.any_append, hfs, hplain]
    rfl

/-- The first time the acts at the end of the thread follow, the second time nothing does. -/
theorem leave_orderly (hphase : (m.world.thread m.thread).phase = .exiting) {b : Bool}
    (hstack : (∃ acts, m.stack = [.script acts, .leave, .finishExit b]) ∨
      m.stack = [.finishExit b]) : m.leave.Orderly := by
  rcases m.leave_cases with ⟨hnone, hleave⟩ | ⟨rs, bag, s, hleave, hs⟩ <;> rw [hleave]
  · refine ⟨hw, hone, ?_⟩
    rcases hstack with ⟨acts, hstack⟩ | hstack
    · exact .acts [.script acts] b hphase hstack rfl
    · exact .finishes b hphase hstack rfl hnone
  · have hself : World.thread (m.world.setSite m.thread s) m.thread =
        { m.world.thread m.thread with presence := s.presence } := by
      rw [World.thread_setSite, if_pos rfl]
    have hphase' : (World.thread (m.world.setSite m.thread s) m.thread).phase = .exiting := by
      rw [hself]
      exact hphase
    refine ⟨hw.insert rfl ?_ ?_, fun t ht => ?_, ?_⟩
    · intro hrunning
      cases hrunning.symm.trans hphase
    · intro hexited
      cases hexited.symm.trans hphase
    · change (World.thread (m.world.setSite m.thread s) t).phase = .exiting at ht
      rw [World.thread_setSite] at ht
      split at ht
      · assumption
      · exact hone t ht
    · rcases hstack with ⟨acts, hstack⟩ | hstack
      · refine .acts [.reclaim rs, .abandonRest bag, .script acts] b hphase' ?_ rfl
        change _ :: _ :: m.stack = _
        rw [hstack]
        rfl
      · refine .reclaims [.reclaim rs, .abandonRest bag] b hphase' ?_ rfl ?_
        · change _ :: _ :: m.stack = _
          rw [hstack]
          rfl
        · change (World.thread (m.world.setSite m.thread s) m.thread).presence = _
          rw [hself]
          exact hs

theorem finishExit_orderly (hstack : m.stack = [])
    (hnone : (m.world.thread m.thread).presence.records = []) (b : Bool) :
    (m.proceed (.finishExit b)).Orderly := by
  refine ⟨hw.insert rfl Phase.noConfusion fun _ => hnone, fun t ht => ?_, .ended ?_ ?_⟩
  · change (World.thread (m.world.setPhase m.thread .exited) t).phase = .exiting at ht
    rw [World.thread_setPhase] at ht
    split at ht
    · assumption
    · exact hone t ht
  · change (World.thread (m.world.setPhase m.thread .exited) m.thread).phase = .exited
    rw [World.thread_setPhase, if_pos rfl]
  · change (outcome ⟨_, _, m.stack, .answer _⟩).isSome = true
    rw [hstack]
    rfl

end final

theorem proceed_orderly {m : Run V} (hm : m.Orderly) {f : Frame V} {rest : List (Frame V)}
    (hstack : m.stack = f :: rest) (hf : f.isFinal = true) :
    (proceed { m with stack := rest, control := .resume } f).Orderly := by
  have hdropped (hphase : (m.world.thread m.thread).phase = .running)
      (hplain : m.stack.any Frame.endsThread = false) :
      (proceed { m with stack := rest, control := .resume } f).Orderly := by
    rw [hstack, List.any_cons, Bool.or_eq_false_iff] at hplain
    cases f with
    | dropChain queue next =>
      exact dropChain_orderly (m := { m with stack := rest, control := .resume }) hm.world
        hm.exiting hphase hplain.2 queue next
    | leave | finishExit => exact absurd hplain.1 Bool.noConfusion
    | _ => cases hf
  have hleaves {b : Bool} (hphase : (m.world.thread m.thread).phase = .exiting)
      (hrest : (∃ acts, rest = [.script acts, .leave, .finishExit b]) ∨ rest = [.finishExit b]) :
      (leave { m with stack := rest, control := .resume }).Orderly :=
    leave_orderly (m := { m with stack := rest, control := .resume }) hm.world hm.exiting hphase
      hrest
  have hfinish (b : Bool) (hrest : rest = [])
      (hnone : (m.world.thread m.thread).presence.records = []) :
      (proceed { m with stack := rest, control := .resume } (.finishExit b)).Orderly :=
    finishExit_orderly (m := { m with stack := rest, control := .resume }) hm.world hm.exiting
      hrest hnone b
  cases hm.ending with
  | notBegun hphase hplain => exact hdropped hphase hplain
  | leaves fs acts b hphase hs hfs =>
    obtain ⟨rfl, hrest⟩ := eq_of_isFinal (hstack.symm.trans hs) hfs hf
    exact hleaves hphase (.inl ⟨acts, hrest⟩)
  | acts fs b hphase hs hfs =>
    obtain ⟨rfl, hrest⟩ := eq_of_isFinal (hstack.symm.trans hs) hfs hf
    exact hleaves hphase (.inr hrest)
  | reclaims fs b _ hs hfs hgone =>
    obtain ⟨rfl, hrest⟩ := eq_of_isFinal (hstack.symm.trans hs) hfs hf
    refine hfinish b hrest ?_
    rw [hgone]
    rfl
  | finishes b _ hs _ hnone =>
    obtain ⟨rfl, hrest⟩ := List.cons.inj (hstack.symm.trans hs)
    exact hfinish b hrest hnone
  | ended _ hout =>
    rw [stack_of_outcome hout] at hstack
    cases hstack

theorem step_orderly {m : Run V} (hcalm : m.IsCalm) (hm : m.Orderly) : m.step.Orderly := by
  by_cases hfinishes : m.control = .resume ∧ ∃ b, m.stack = [.finishExit b]
  · obtain ⟨hcontrol, b, hstack⟩ := hfinishes
    rw [step_of_resume hstack hcontrol]
    exact proceed_orderly hm hstack rfl
  by_cases hover : m.outcome.isSome = true
  · rw [step_of_outcome hover]
    exact hm
  have hphase : (m.world.thread m.thread).phase ≠ .exited := by
    intro hp
    cases hm.ending with
    | ended _ hout => exact hover hout
    | notBegun h | leaves _ _ _ h | acts _ _ h | reclaims _ _ h | finishes _ h =>
      cases h.symm.trans hp
  rcases m.step_confined with hc | ⟨f, rest, hstack, hf, hc⟩ | ⟨f, rest, hstack, hf, hstep⟩
  · refine hm.confined hc (fun b hb => ?_) hphase
    rcases hm.ending.at_finish [] hb rfl with hgone | ⟨-, hcontrol, -⟩
    · exact hgone
    · exact absurd ⟨hcontrol, b, hb⟩ hfinishes
  · refine Orderly.confined (m := { m with stack := rest })
      ⟨hm.world, hm.exiting, hm.ending.pop hstack (hf hcalm)⟩ hc (fun b hb => ?_) hphase
    cases hb
    rcases hm.ending.at_finish [f] hstack (by rw [List.any_cons, hf hcalm]; rfl) with
      hgone | ⟨hnil, -⟩
    · exact hgone
    · cases hnil
  · rw [hstep]
    exact proceed_orderly hm hstack hf

theorem Orderly.not_exiting {m : Run V} (hm : m.Orderly) (ho : m.outcome.isSome = true)
    (t : ThreadId) : (m.world.thread t).phase ≠ .exiting := by
  have hstack := stack_of_outcome ho
  intro ht
  obtain rfl := hm.exiting t ht
  cases hm.ending with
  | notBegun hphase | ended hphase => cases hphase.symm.trans ht
  | leaves fs _ _ _ hs | acts fs _ _ hs | reclaims fs _ _ hs =>
    rw [hstack] at hs
    exact absurd hs.symm (List.append_ne_nil_of_right_ne_nil fs (List.cons_ne_nil _ _))
  | finishes _ _ hs =>
    rw [hstack] at hs
    cases hs

theorem start_orderly {w : World V} (hw : w.Orderly) (t : ThreadId) (command : Command V)
    (hnone : ∀ t, (w.thread t).phase ≠ .exiting) (ht : (w.thread t).phase ≠ .exited) :
    (w.start t command).Orderly := by
  have hrunning : (w.thread t).phase = .running := by
    cases hp : (w.thread t).phase with
    | running => rfl
    | exiting => exact absurd hp (hnone t)
    | exited => exact absurd hp ht
  have hplain {m : Run V} (hthread : m.thread = t) (hworld : m.world.Orderly)
      (hphases : ∀ t', (m.world.thread t').phase = (w.thread t').phase)
      (hstack : m.stack.any Frame.endsThread = false) : m.Orderly := by
    refine ⟨hworld, fun t' h => ?_, .notBegun ?_ hstack⟩ <;> rw [hphases] at *
    · exact absurd h (hnone t')
    · rw [hthread]
      exact hrunning
  cases command with
  | perform | retireNull => exact hplain rfl hw (fun _ => rfl) rfl
  | atExit acts =>
    refine hplain rfl (hw.insert rfl (fun _ => hw.running t hrunning) fun h => absurd h ht)
      (fun t' => ?_) rfl
    refine (congrArg Thread.phase (w.thread_insert t _ t')).trans ?_
    split
    · rename_i ht'
      rw [ht']
    · rfl
  | dropQueue name =>
    unfold World.start
    dsimp only
    split
    · exact hplain rfl hw (fun _ => rfl) rfl
    · exact hplain rfl ⟨hw.running, hw.exited⟩ (fun _ => rfl) rfl
  | exit byPanic =>
    refine ⟨hw.insert rfl Phase.noConfusion Phase.noConfusion, fun t' h => ?_,
      .leaves [] (w.thread t).exitActs byPanic ?_ rfl rfl⟩
    · change ((w.setPhase t .exiting).thread t').phase = .exiting at h
      rw [World.thread_setPhase] at h
      split at h
      · assumption
      · exact absurd h (hnone t')
    · change ((w.setPhase t .exiting).thread t).phase = .exiting
      rw [World.thread_setPhase, if_pos rfl]

theorem begin_orderly {w : World V} (hw : w.Orderly) (i : Instruction V)
    (hnone : ∀ t, (w.thread t).phase ≠ .exiting) (ht : (w.thread i.thread).phase ≠ .exited) :
    (w.begin i).Orderly := by
  have hthread := w.thread_enrol i.thread
  refine start_orderly ⟨fun t => ?_, fun t => ?_⟩ _ _ (fun t => ?_) ?_ <;> rw [hthread]
  · exact hw.running t
  · exact hw.exited t
  · exact hnone t
  · exact ht

theorem Reaches.arrives {P : Run V → Prop} {m n : Run V} (h : Reaches P m n) : P n := by
  cases h <;> assumption

theorem Reaches.orderly {m : Run V} (h : Reaches IsCalm idle m) : m.Orderly := by
  induction h with
  | refl =>
    exact ⟨⟨fun _ _ => Presence.noConfusion, fun _ h => Phase.noConfusion h⟩,
      fun _ h => Phase.noConfusion h, .notBegun rfl rfl⟩
  | step hn _ ih => exact step_orderly hn.arrives ih
  | next i _ ho hp _ ih => exact begin_orderly ih.world i (ih.not_exiting ho) hp

end Run
end Reclaim
