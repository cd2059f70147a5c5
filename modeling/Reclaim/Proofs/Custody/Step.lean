import Mathlib.Data.List.Basic
import Reclaim.Proofs.Custody.Perform
import Reclaim.Proofs.QueueRounds

set_option autoImplicit false

namespace Reclaim
variable {V : Type}

namespace World

theorem evolves_fault {w : World V} {hs : List (Holding V)} {k : Holding V} {c : Control V}
    (hk : k ∈ hs) (h : w.Lacks k) : w.Evolves hs w [] c := fun _ =>
  .single (.fault (List.mem_append_left _ hk) h (List.sublist_append_right _ _))

theorem lacks_visit {w : World V} {name : Name} {q : Queue} {a : Address}
    (hq : w.queues.get? name = some q) (ha : q.head = some a ∨ q.tail = some a)
    (hnone : w.memory.nodes.get? a = none) : w.Lacks (.visit name) := by
  intro q₁ hq₁
  obtain rfl := Option.some.inj (hq.symm.trans hq₁)
  exact ⟨a, ha, hnone⟩

theorem lacks_visit_of_none {w : World V} {name : Name} (hnone : w.queues.get? name = none) :
    w.Lacks (.visit name) := by
  intro q hq
  rw [hnone] at hq
  cases hq

end World

namespace Frame

theorem visit_mem_enqueue (e : EnqueueFrame V) : .visit e.queue ∈ (enqueue e).holdings := by
  obtain ⟨_, _ | _, _, _, _⟩ := e <;> simp [holdings]

theorem visit_mem_dequeue (d : DequeueFrame V) : .visit d.queue ∈ (dequeue d).holdings := by
  obtain ⟨_, _ | _ | _, _⟩ := d <;> simp [holdings]

theorem holdings_lasting (f : Frame V) : ∀ k ∈ f.holdings, k.isLasting = true := by
  intro k hk
  cases f with
  | enqueue e =>
    obtain ⟨q, _ | ⟨h, a⟩, p, s, r⟩ := e <;>
      simp only [Frame.holdings, List.mem_cons, List.not_mem_nil, or_false] at hk
    · subst hk
      rfl
    · rcases hk with rfl | rfl | rfl <;> rfl
  | dequeue d =>
    obtain ⟨q, _ | ⟨c, h⟩ | ⟨c, h, a⟩, goal⟩ := d <;>
      simp only [Frame.holdings, List.mem_cons, List.not_mem_nil, or_false] at hk
    · subst hk
      rfl
    · rcases hk with rfl | rfl | rfl <;> rfl
    · rcases hk with rfl | rfl <;> rfl
  | reclaim rest =>
    obtain ⟨r, -, rfl⟩ := List.mem_map.1 hk
    rfl
  | dropChain queue next =>
    obtain rfl := List.mem_singleton.1 hk
    rfl
  | abandonRest bag =>
    obtain ⟨r, -, rfl⟩ := List.mem_map.1 hk
    rfl
  | script | acting | answering | leave | finishExit => simp [Frame.holdings] at hk

theorem flatMap_holdings_lasting (stack : List (Frame V)) :
    ∀ k ∈ stack.flatMap holdings, k.isLasting = true := by
  intro k hk
  obtain ⟨f, -, hk⟩ := List.mem_flatMap.1 hk
  exact f.holdings_lasting k hk

end Frame

section transitions
variable {t : ThreadId} {w w' : World V} {fs : List (Frame V)} {c : Control V}

theorem Empties.evolves {s : Slot (Payload V)} (h : Empties w s w' fs) :
    w.Evolves [.dropping (s.value?.map (·.value))] w' fs c := by
  intro stack
  cases h with
  | vacant hnone =>
    rw [hnone]
    exact .single .vacant
  | full p hp =>
    rw [hp]
    exact .single .drop

theorem Supplies.evolves {queue : Name} {rest : Supply V} {reply : Answer V}
    (h : Supplies queue rest reply fs c) : w.Evolves [.visit queue] w fs c := by
  intro stack
  cases h with
  | finished => exact .single .depart
  | next => exact .refl

theorem Reclaims.evolves {rs : List Retired} (h : Reclaims w rs w' fs c) :
    w.Evolves (rs.map .doomed) w' fs c := by
  intro stack
  cases h with
  | finished => exact .refl
  | object r rest o w₁ ho htells =>
    refine .cons (.destroyObject o ho) ?_
    cases htells with
    | boxed => exact .single (.note _ rfl rfl)
    | custom => exact .cons (.note _ rfl rfl) (.single (.note _ rfl rfl))
  | node r rest n w₁ fs ho hn hempties =>
    rw [List.append_assoc]
    exact .cons (.destroyNode n ho hn) (hempties.evolves (c := .resume) (.reclaim rest :: stack))
  | strays r rest ho hn =>
    exact .single (.fault (k := .doomed r) (List.mem_cons_self ..) ⟨ho, hn⟩
      (List.sublist_cons_self ..))

theorem Enqueues.evolves {e : EnqueueFrame V} (h : Enqueues t w e w' fs c) :
    w.Evolves (Frame.enqueue e).holdings w' fs c := by
  intro stack
  have hlasting := Frame.flatMap_holdings_lasting stack
  cases h with
  | lost a hnone =>
    exact World.evolves_fault (Frame.visit_mem_enqueue e) (World.lacks_visit_of_none hnone) stack
  | overflows p hstage =>
    obtain ⟨name, stage, current, rest, reply⟩ := e
    obtain rfl : stage = .start := hstage
    exact .cons (.allocate current) (Effects.loseAll (Control.unwind_panics p) [_, _] rfl)
  | allocates h w₁ hstage hcreate =>
    obtain ⟨name, stage, current, rest, reply⟩ := e
    obtain rfl : stage = .start := hstage
    exact .cons (.allocate current) (.single (World.createHazard_effect hcreate _))
  | strays h a b q hstage hq hround =>
    obtain ⟨name, stage, current, rest, reply⟩ := e
    obtain rfl : stage = .link h a := hstage
    obtain ⟨ht, hb⟩ := Queue.enqueueRound_dangling hround
    exact .cons (.publish q.tail) (.single (.fault (k := .visit name) (by simp)
      (World.lacks_visit hq (.inr ht) hb) (List.sublist_append_right [_, _, _] _)))
  | fails h a q p hstage =>
    obtain ⟨name, stage, current, rest, reply⟩ := e
    obtain rfl : stage = .link h a := hstage
    exact .single (.publish q.tail)
  | helps h a q q' hstage hq hround =>
    obtain ⟨name, stage, current, rest, reply⟩ := e
    obtain rfl : stage = .link h a := hstage
    obtain ⟨t, last, next, ht, hlast, hnext, rfl⟩ := Queue.enqueueRound_helped hround
    exact .cons (.publish q.tail) (.single (.help name q t next last hq ht hlast hnext))
  | breaks h a q q' nodes p w₁ hstage hq hround hdrop =>
    obtain ⟨name, stage, current, rest, reply⟩ := e
    obtain rfl : stage = .link h a := hstage
    refine .cons (.publish q.tail) (.cons (.link name q q' nodes hq hround hlasting) ?_)
    exact (World.dropHazard_effects hdrop (fun _ => Control.unwind_panics p) _).trans
      (Effects.loseAll (Control.unwind_panics p) [_] rfl)
  | links h a q q' nodes w₁ _ _ hstage hq hround hdrop hsupplies =>
    obtain ⟨name, stage, current, rest, reply⟩ := e
    obtain rfl : stage = .link h a := hstage
    refine .cons (.publish q.tail) (.cons (.link name q q' nodes hq hround hlasting) ?_)
    exact ((World.dropHazard_loses_nothing hdrop _).snoc .count).trans (hsupplies.evolves stack)

/-- The attempt has its result and still has its hazard pointer. -/
theorem Decides.effects {lossy : Prop} {g : Registry} {d : DequeueFrame V} {call : CallId}
    {h : Hazard} {q : Queue} {found : Option (Payload V)}
    (hd : Decides w d.queue call d.stage h w' q found) (stack : List (Frame V)) :
    Effects lossy g w ((Frame.dequeue d).holdings ++ stack.flatMap Frame.holdings) w'
        (.hazard h :: .closing q.id call (found.map (·.value)) :: .visit d.queue ::
          stack.flatMap Frame.holdings) ∧
      w'.queues.get? d.queue = some q := by
  obtain ⟨name, stage, goal⟩ := d
  have hlasting : ∀ k ∈ Holding.visit name :: stack.flatMap Frame.holdings, k.isLasting = true :=
    Frame.flatMap_holdings_lasting (.dequeue { queue := name, goal } :: stack)
  dsimp only at hd
  cases hd with
  | front hq hround =>
    rename_i h₀ q₀ p nodes
    exact ⟨.cons (.publish q₀.head) (.single (.claimFront name q₀ q p nodes hq hround hlasting)),
      Table.get?_insert_self ..⟩
  | empty hq hround =>
    exact ⟨.cons (.publish q.head) (.single (.findEmpty name q hq hround)), hq⟩
  | detached hq hclaim =>
    rename_i a q₀ p nodes
    exact ⟨.single (.claimDetached name q₀ q p nodes hq hclaim), Table.get?_insert_self ..⟩

theorem Gives.evolves {queue : Name} {q : Queue} {goal : Goal V} {v : Option V}
    (h : Gives queue q w goal v w' fs c) (hq : w.queues.get? queue = some q) :
    w.Evolves [.visit queue] w' fs c := by
  intro stack
  cases h with
  | once | last => exact .single .depart
  | more | wait => exact .refl
  | value v epoch => exact .cons .depart (.single (.setWaiter queue q _ hq))

theorem Dequeues.evolves {d : DequeueFrame V} (h : Dequeues t w d w' fs c) :
    w.Evolves (Frame.dequeue d).holdings w' fs c := by
  intro stack
  have hlasting : ∀ k ∈ Holding.visit d.queue :: stack.flatMap Frame.holdings,
      k.isLasting = true :=
    Frame.flatMap_holdings_lasting (.dequeue { queue := d.queue, goal := d.goal } :: stack)
  cases h with
  | lost a hnone =>
    exact World.evolves_fault (Frame.visit_mem_dequeue d) (World.lacks_visit_of_none hnone) stack
  | overflows p hthere hstage =>
    obtain ⟨name, stage, goal⟩ := d
    obtain rfl : stage = .start := hstage
    exact Effects.loseAll (Control.unwind_panics p) [_] rfl
  | begins h w₁ hthere hstage hcreate =>
    obtain ⟨name, stage, goal⟩ := d
    obtain rfl : stage = .start := hstage
    exact .cons (World.createHazard_effect hcreate _)
      (.cons (.begin name) (.single (.reorder (.swap _ _ _))))
  | strays call h a q hstage hq hround =>
    obtain ⟨name, stage, goal⟩ := d
    obtain rfl : stage = .round call h := hstage
    obtain ⟨ha, hnone⟩ := Queue.dequeueRound_dangling hround
    exact .cons (.publish q.head) (.single (.fault (k := .visit name) (by simp)
      (World.lacks_visit hq (.inl ha) hnone) (List.sublist_append_right [_, _, _] _)))
  | fails call h q p hstage =>
    obtain ⟨name, stage, goal⟩ := d
    obtain rfl : stage = .round call h := hstage
    exact .single (.publish q.head)
  | helps call h q q' hstage hq hround =>
    obtain ⟨name, stage, goal⟩ := d
    obtain rfl : stage = .round call h := hstage
    obtain ⟨t, last, next, ht, hlast, hnext, rfl⟩ := Queue.dequeueRound_helped hround
    exact .cons (.publish q.head) (.single (.help name q t next last hq ht hlast hnext))
  | again call h q hstage =>
    obtain ⟨name, stage, goal⟩ := d
    obtain rfl : stage = .round call h := hstage
    exact .single (.publish q.head)
  | unlinkOverflows call h q q' a p hstage hq hround =>
    obtain ⟨name, stage, goal⟩ := d
    obtain rfl : stage = .round call h := hstage
    obtain ⟨n, next, hhead, -, -, -, -⟩ := Queue.dequeueRound_unlinked hround
    exact .cons (.publish q.head) (.cons (.unlink name q q' a hq hround hhead hlasting)
      (Effects.loseAll (Control.unwind_panics p) [_] rfl))
  | unlinks call h q q' a rs s hstage hq hround hs =>
    obtain ⟨name, stage, goal⟩ := d
    obtain rfl : stage = .round call h := hstage
    obtain ⟨n, next, hhead, -, -, -, -⟩ := Queue.dequeueRound_unlinked hround
    obtain ⟨hreg, hperm, hfree⟩ := Site.retire_spec hs
    -- The node is retired before its value is claimed, so the scan may already run.
    exact .cons (.publish q.head) (.cons (.unlink name q q' a hq hround hhead hlasting)
      (.cons .declare (.single (.scan [⟨a, .boxed⟩] _ [] t s hreg hreg.symm hperm hfree))))
  | claimStrays call h a b q hstage hq hclaim =>
    obtain ⟨name, stage, goal⟩ := d
    obtain rfl : stage = .unlinked call h a := hstage
    exact World.evolves_fault (k := .detached name call h a) (by simp [Frame.holdings])
      (Queue.claim_dangling hclaim) stack
  | claimRefused call h a q hstage hq hclaim =>
    obtain ⟨name, stage, goal⟩ := d
    obtain rfl : stage = .unlinked call h a := hstage
    exact .single (.missDetached name q hq hclaim)
  | breaks call h q found w₁ _ p hdecides hdrop =>
    refine (hdecides.effects stack).1.trans ?_
    exact (World.dropHazard_effects hdrop (fun _ => Control.unwind_panics p) _).trans
      (Effects.loseAll (Control.unwind_panics p) [_, _] rfl)
  | ends call h q found w₁ w₂ _ _ _ hdecides hdrop hgives =>
    obtain ⟨heffects, hq⟩ := hdecides.effects stack
    rw [← World.queues_of_dropHazard hdrop] at hq
    refine (heffects.trans ((World.dropHazard_loses_nothing hdrop _).snoc .finish)).trans ?_
    exact hgives.evolves hq stack

theorem Proceeds.evolves {f : Frame V} (h : Proceeds t w f w' fs c) :
    w.Evolves f.holdings w' fs c := by
  intro stack
  cases h with
  | scriptOver | acts | answers | stays => exact .refl
  | acted label rest => exact .single (.note _ rfl rfl)
  | reclaims h => exact h.evolves stack
  | enqueues h => exact h.evolves stack
  | dequeues h => exact h.evolves stack
  | chainOver i => exact .single .freed
  | chainStrays i a hnone =>
    exact World.evolves_fault (k := .cut i (some a)) (List.mem_singleton_self _) hnone stack
  | frees i a n w₁ fs hn hempties =>
    rw [List.append_assoc]
    exact .cons (.free n hn) (hempties.evolves (c := .resume) (.dropChain i n.next :: stack))
  | leaves rs b s hs =>
    have hspec := (w.site t).leave_spec
    rw [hs] at hspec
    obtain ⟨hreg, hperm, hfree⟩ := hspec
    exact .single (.scan [] _ b.records t s hreg hreg.symm hperm hfree)
  | keepsNothing b hempty =>
    rw [Frame.holdings, (Bag.isEmpty_iff b).1 hempty]
    exact .refl
  | abandons b => exact .single (.abandon b)
  | exits => exact .single (.setThread t _ rfl)

theorem Transition.evolves {cue : Cue V} (h : Transition t w cue w' fs c) :
    w.Evolves (cue.frames.flatMap Frame.holdings) w' fs c := by
  intro stack
  cases h with
  | performs h => exact h.evolves stack
  | @proceeds f _ _ _ h =>
    rw [Cue.frames, List.flatMap_singleton]
    exact h.evolves stack
  | acted a label rest => exact .single (.note _ rfl rfl)
  | passesOn a f =>
    rw [Cue.frames, List.flatMap_singleton]
    exact .refl
  | catches p label rest => exact .single (.note _ rfl rfl)
  | releases p f h hh =>
    have hdropped (hs : List (Holding V)) :
        Effects (¬ ∀ p', (.unwind p : Control V) ≠ .unwind p')
          (w.dropHazard t h).2.domain.registry w (.hazard h :: hs) (w.dropHazard t h).2 hs :=
      World.dropHazard_effects rfl (fun _ => Control.unwind_panics p) hs
    cases f with
    | enqueue e =>
      obtain ⟨name, _ | ⟨h', a⟩, current, rest, reply⟩ := e
      · cases hh
      · obtain rfl := Option.some.inj hh
        exact (hdropped _).trans (Effects.loseAll (Control.unwind_panics p) [_, _] rfl)
    | dequeue d =>
      obtain ⟨name, _ | ⟨call, h'⟩ | ⟨call, h', a⟩, goal⟩ := d
      · cases hh
      · obtain rfl := Option.some.inj hh
        exact (hdropped _).trans (Effects.loseAll (Control.unwind_panics p) [_, _] rfl)
      · obtain rfl := Option.some.inj hh
        exact .cons (.giveUp (Control.unwind_panics p))
          ((hdropped _).trans (Effects.loseAll (Control.unwind_panics p) [_] rfl))
    | script | acting | reclaim | answering | dropChain | leave | abandonRest | finishExit =>
      cases hh
  | passesThrough p f hnone =>
    refine Effects.loseAll (Control.unwind_panics p) _ ?_
    rw [Cue.frames, List.flatMap_singleton]
    cases f with
    | enqueue e =>
      obtain ⟨name, _ | ⟨h', a⟩, current, rest, reply⟩ := e
      · rfl
      · cases hnone
    | dequeue d =>
      obtain ⟨name, _ | ⟨call, h'⟩ | ⟨call, h', a⟩, goal⟩ := d
      · rfl
      · cases hnone
      · cases hnone
    | reclaim | abandonRest => exact Holding.filterMap_map_eq_nil _ _ (fun _ => rfl) _
    | script | acting | answering | dropChain | leave | finishExit => rfl

end transitions

namespace Run

theorem holdings_lasting (m : Run V) : ∀ k ∈ m.holdings, k.isLasting = true :=
  Frame.flatMap_holdings_lasting m.stack

/-- Between steps nothing is held that does not last. -/
theorem filterMap_holdings_eq_nil {β : Type} {p : Holding V → Option β}
    (hp : ∀ k, k.isLasting = true → p k = none) (m : Run V) : m.holdings.filterMap p = [] :=
  List.filterMap_eq_nil_iff.2 fun k hk => hp k (m.holdings_lasting k hk)

theorem filterMap_holdings {β : Type} {p : Holding V → Option β} {f : Frame V → Option β}
    (h : ∀ k : Frame V, k.holdings.filterMap p = (f k).toList) (m : Run V) :
    m.holdings.filterMap p = m.stack.filterMap f := by
  rw [holdings, List.filterMap_flatMap, List.filterMap_eq_flatMap_toList]
  exact List.flatMap_congr fun k _ => h k

theorem step_effects (m : Run V) :
    Effects (¬ m.step.IsCalm) m.step.world.domain.registry m.world m.holdings m.step.world
      m.step.holdings := by
  rcases m.step_cases with hsame | ⟨cue, rest, -, hstack, -, fs, hstep, htransition⟩
  · rw [hsame]
    exact .refl
  · have heffects := htransition.evolves rest
    rw [← List.flatMap_append, ← hstack, ← hstep] at heffects
    exact heffects

theorem begin_effects (w : World V) (i : Instruction V) (lossy : Prop) (g : Registry) :
    Effects lossy g w [] (w.begin i).world (w.begin i).holdings := by
  obtain ⟨t, command⟩ := i
  refine .cons (.setThread t (w.thread t) rfl) ?_
  have hkeep (th : Thread V) (hp : th.presence = ((w.enrol t).thread t).presence) :
      Effect lossy g (w.enrol t) [] { w.enrol t with
        threads := (w.enrol t).threads.insert t th } [] := .setThread t th hp
  cases command with
  | perform op => exact .refl
  | exit byPanic => exact .single (hkeep _ rfl)
  | atExit acts => exact .single (hkeep _ rfl)
  | dropQueue name =>
    unfold World.begin World.start
    dsimp only
    split
    · exact .refl
    · rename_i q hq
      exact .single (.discard name q hq)
  | retireNull => exact .refl

/-- A step without a panic loses nothing. -/
theorem calm_effects {m : Run V} (hcalm : m.step.IsCalm) :
    Effects False m.step.world.domain.registry m.world m.holdings m.step.world
      m.step.holdings := by
  have hstep := step_effects m
  rwa [eq_false (not_not_intro hcalm)] at hstep

theorem stack_of_outcome {m : Run V} (h : m.outcome.isSome = true) : m.stack = [] := by
  unfold outcome at h
  split at h <;> simp_all

theorem holdings_of_outcome {m : Run V} (h : m.outcome.isSome = true) : m.holdings = [] := by
  rw [holdings, stack_of_outcome h]
  rfl

/-- What every effect keeps holds on from any state of a run. -/
theorem Reaches.keeps {P : World V → List (Holding V) → Prop} {Q : Run V → Prop}
    (step : ∀ (lossy : Prop) (g : Registry) (w : World V) (hs : List (Holding V)) (w' : World V)
      (hs' : List (Holding V)), Effect lossy g w hs w' hs' → P w hs → P w' hs')
    {m n : Run V} (h : Reaches Q m n) (hm : P m.world m.holdings) : P n.world n.holdings := by
  induction h with
  | refl => exact hm
  | step _ _ ih => exact (step_effects _).induct (step _ _) ih
  | next i _ ho _ _ ih =>
    rw [holdings_of_outcome ho] at ih
    exact (begin_effects _ i False {}).induct (step _ _) ih

theorem Reachable.of_effects {P : World V → List (Holding V) → Prop} (init : P {} [])
    (step : ∀ (lossy : Prop) (g : Registry) (w : World V) (hs : List (Holding V)) (w' : World V)
      (hs' : List (Holding V)), Effect lossy g w hs w' hs' → P w hs → P w' hs')
    {m : Run V} (h : m.Reachable) : P m.world m.holdings :=
  h.keeps step init

theorem Reaches.of_effects {P : World V → List (Holding V) → Prop} (init : P {} [])
    (step : ∀ (g : Registry) (w : World V) (hs : List (Holding V)) (w' : World V)
      (hs' : List (Holding V)), Effect False g w hs w' hs' → P w hs → P w' hs')
    {m : Run V} (h : Reaches IsCalm idle m) : P m.world m.holdings := by
  induction h with
  | refl => exact init
  | @step n _ hcalm ih =>
    exact (calm_effects hcalm).induct (step _) ih
  | next i _ ho _ _ ih =>
    rw [holdings_of_outcome ho] at ih
    exact (begin_effects _ i False {}).induct (step _) ih

end Run
end Reclaim
