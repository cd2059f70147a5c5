import Reclaim.Proofs.EmptyQueues
import Reclaim.Proofs.InterruptedRemovals
import Reclaim.Proofs.RegistryPeak
import Reclaim.Proofs.ScriptEnds

/-!
What a single attempt to remove a value gives. If nothing waits in the queue it ends with nothing at
its third step (`Run.Reachable.attempt_of_empty`). If it ends with nothing although something waited
when it began, another attempt was faster: a destructor that has run inside it has removed a value
(`Run.Reaches.attempt_outrun`).
-/

set_option autoImplicit false

namespace Reclaim
variable {V : Type}

def Frame.IsAttempt (name : Name) (c : CallId) : Frame V → Prop
  | .dequeue d => d.queue = name ∧ d.goal = .once ∧ (Frame.dequeue d).call? = some c
  | _ => False

theorem Frame.IsAttempt.plain {name : Name} {c : CallId} (f : Frame V) (h : f.IsAttempt name c) :
    f.isFinal = false := by
  cases f <;> first | rfl | cases h

theorem Decides.call? {w w' : World V} {name : Name} {c : CallId} {stage : DequeueStage}
    {h : Hazard} {q : Queue} {found : Option (Payload V)}
    (hd : Decides w name c stage h w' q found) (goal : Goal V) :
    (Frame.dequeue { queue := name, stage, goal }).call? = some c := by
  cases hd <;> rfl

/-- With a step of its own the attempt stays under way or comes to its end, and what it answers then
was recorded last. -/
theorem Dequeues.attempt {t : ThreadId} {w w' : World V} {d : DequeueFrame V}
    {fs : List (Frame V)} {k : Control V} {name : Name} {i : QueueId} {c : CallId}
    (h : Dequeues t w d w' fs k) (hd : (Frame.dequeue d).IsAttempt name c)
    (hid : w.queueId? name = some i) (hcalm : ∀ p, k ≠ .unwind p) :
    (∃ fs' d', fs = fs' ++ [.dequeue d'] ∧ (Frame.dequeue d').IsAttempt name c ∧
      fs'.any Frame.isFinal = false) ∨
      fs = [] ∧ ∀ v, k = .answer (.taken v) → ∃ l, w'.history = .returned i c v :: l := by
  obtain ⟨queue, stage, goal⟩ := d
  obtain ⟨rfl, rfl, hcall⟩ := hd
  cases h with
  | lost | strays | claimStrays => exact .inr ⟨rfl, by rintro _ ⟨⟩⟩
  | overflows _ hthere hstage | begins _ _ hthere hstage =>
    obtain rfl : stage = _ := hstage
    cases hcall
  | fails | unlinkOverflows | breaks => exact absurd rfl (hcalm _)
  | helps call x q q' hstage | again call x q hstage | claimRefused call x a q hstage =>
    obtain rfl : stage = _ := hstage
    exact .inl ⟨[], _, rfl, ⟨rfl, rfl, hcall⟩, rfl⟩
  | unlinks call x q q' a rs s hstage =>
    obtain rfl : stage = _ := hstage
    exact .inl ⟨[.reclaim rs], _, rfl, ⟨rfl, rfl, hcall⟩, rfl⟩
  | ends call x q found w₁ w₂ _ _ _ hdecides _ hgives =>
    obtain rfl := Option.some.inj ((hdecides.call? .once).symm.trans hcall)
    obtain rfl := Option.some.inj (hdecides.queueId?.symm.trans hid)
    cases hgives
    refine .inr ⟨rfl, fun v hv => ?_⟩
    obtain rfl := Answer.taken.inj (Control.answer.inj hv)
    exact ⟨_, rfl⟩

namespace Run
variable {m : Run V} {name : Name} {q : Queue} {i : QueueId} {c : CallId}

/-- Nothing is left of the attempt, and if it has given an answer that was recorded last. -/
structure Attempted (i : QueueId) (c : CallId) (rest : List (Frame V)) (n : Run V) : Prop where
  stack : n.stack = rest
  recorded : ∀ v, n.control = .answer (.taken v) → ∃ l, n.world.history = .returned i c v :: l

/-- Without a panic the result of an attempt goes to whoever has asked for it. -/
theorem gives_of_calm {d : DequeueFrame V} {h : Hazard} {found : Option (Payload V)}
    (hcalm : (m.finishAttempt d c h q found).IsCalm) :
    ∃ w, Follows (Gives d.queue q w d.goal (found.map (·.value))) m
      (m.finishAttempt d c h q found) := by
  rcases hdrop : m.world.dropHazard m.thread h with ⟨_ | p, w⟩
  · exact ⟨_, m.finishAttempt_gives d c h q found hdrop⟩
  · unfold finishAttempt at hcalm
    rw [hdrop] at hcalm
    exact absurd rfl (hcalm p)

/-- The frame of the attempt is the innermost one. -/
theorem step_attempt {f : Frame V} {rest : List (Frame V)} (hf : f.IsAttempt name c)
    (hstack : m.stack = f :: rest) (hid : m.world.queueId? name = some i) (hcalm : m.IsCalm)
    (hnext : m.step.IsCalm) :
    m.step.IsAbove (Frame.IsAttempt name c) rest ∨ m.step.Attempted i c rest := by
  have hstays {n : Run V} (hn : n.stack = f :: rest) :
      n.IsAbove (Frame.IsAttempt name c) rest := ⟨[], f, hn, hf, rfl⟩
  obtain ⟨w, t, stack, control⟩ := m
  obtain rfl : stack = f :: rest := hstack
  cases control with
  | perform op => exact .inl ((hstays rfl).confined (perform_confined _ op))
  | unwind p => exact absurd rfl (hcalm p)
  | parked | dangling => exact .inl (hstays rfl)
  | answer a =>
    cases f with
    | dequeue d => exact .inl (hstays rfl)
    | _ => cases hf
  | resume =>
    cases f with
    | dequeue d =>
      obtain ⟨-, fs, hfs, hdequeues⟩ :=
        continueDequeue_dequeues ⟨w, t, rest, .resume⟩ d
      rcases hdequeues.attempt hf hid hnext with ⟨fs', d', rfl, hd', hplain⟩ | ⟨rfl, hrecorded⟩
      · exact .inl ⟨fs', _, hfs.trans (List.append_assoc ..), hd', hplain⟩
      · exact .inr ⟨hfs, hrecorded⟩
    | _ => cases hf

/-- An attempt stays under way until it is over. -/
theorem attempt_goes_on {rest : List (Frame V)} {j k : Nat} (hjk : j ≤ k)
    (hcalm : ∀ k' ≤ k, (m.complete k').IsCalm)
    (hid : (m.complete j).world.queueId? name = some i)
    (habove : (m.complete j).IsAbove (Frame.IsAttempt name c) rest) :
    ((m.complete k).IsAbove (Frame.IsAttempt name c) rest ∧
        (m.complete k).world.queueId? name = some i) ∨
      ∃ j', j < j' ∧ j' ≤ k ∧ (m.complete j').Attempted i c rest := by
  induction hjk with
  | refl => exact .inl ⟨habove, hid⟩
  | @step k hjk ih =>
    rcases ih fun k' hk' => hcalm k' (Nat.le_succ_of_le hk') with
      ⟨hnow, hid⟩ | ⟨j', hlt, hle, hover⟩
    · have hnext := hcalm (k + 1) (Nat.le_refl _)
      rw [complete_succ] at hnext ⊢
      have hkept := (hnow.world_confined Frame.IsAttempt.plain).ids name i hid
      rcases step_above Frame.IsAttempt.plain (Q := Attempted i c rest) (fun f hf hstack =>
        step_attempt hf hstack hid (hcalm k (Nat.le_succ k)) hnext) hnow with hstays | hover
      · exact .inl ⟨hstays, hkept⟩
      · refine .inr ⟨k + 1, Nat.lt_succ_of_le hjk, Nat.le_refl _, ?_⟩
        rwa [complete_succ]
    · exact .inr ⟨j', hlt, Nat.le_succ_of_le hle, hover⟩

theorem step_tryDequeue (hq : m.world.queues.get? name = some q)
    (hcontrol : m.control = .perform (.onQueue name .tryDequeue)) :
    m.step = (m.push (.dequeue { queue := name, goal := .once })).resume := by
  rw [step_of_perform hcontrol]
  change m.onQueue name .tryDequeue = _
  unfold onQueue
  rw [hq]

/-- The first step of an attempt gives it its number. -/
theorem step_start {d : DequeueFrame V} {rest : List (Frame V)} (hcontrol : m.control = .resume)
    (hstack : m.stack = .dequeue d :: rest) (hstart : d.stage = .start)
    (hq : m.world.queues.get? d.queue = some q) (hcalm : m.step.IsCalm) :
    ∃ h s, m.step =
      { m with
        world := { (m.world.setSite m.thread s).emit (.hazardCreated h.record) with
          nextCall := m.world.nextCall + 1 }
        stack := .dequeue { d with stage := .round m.world.nextCall h } :: rest
        control := .resume } := by
  have hstep : m.step = continueDequeue { m with stack := rest, control := .resume } d :=
    step_of_resume hstack hcontrol
  unfold continueDequeue at hstep
  simp only [hq, hstart] at hstep
  split at hstep
  · exact absurd rfl (hstep ▸ hcalm _)
  · rename_i h w' hcreate
    obtain ⟨i, s, -, rfl, rfl⟩ := World.createHazard_eq hcreate
    exact ⟨{ record := i }, s, hstep⟩

theorem attempt_begins (hq : m.world.queues.get? name = some q)
    (hcontrol : m.control = .perform (.onQueue name .tryDequeue)) (hcalm : m.step.step.IsCalm) :
    ∃ h s, m.step.step =
      { m with
        world := { (m.world.setSite m.thread s).emit (.hazardCreated h.record) with
          nextCall := m.world.nextCall + 1 }
        stack := .dequeue
          { queue := name, stage := .round m.world.nextCall h, goal := .once } :: m.stack
        control := .resume } := by
  rw [step_tryDequeue hq hcontrol] at hcalm ⊢
  exact step_start rfl rfl rfl hq hcalm

/-- Until an attempt leaves its place on the stack it is under way, and with that step it is over. -/
theorem attempt_ends (hq : m.world.queues.get? name = some q)
    (hcontrol : m.control = .perform (.onQueue name .tryDequeue)) {k : Nat} (hk : 0 < k)
    (hcalm : ∀ j ≤ k, (m.complete j).IsCalm)
    (hwithin : ∀ j, 0 < j → j < k → m.stack.length < (m.complete j).stack.length)
    (hstack : (m.complete k).stack = m.stack) :
    (m.complete k).Attempted q.id m.world.nextCall m.stack := by
  have htwo : m.complete 2 = m.step.step := by simp only [complete_succ, complete_zero]
  by_cases hearly : k = 1
  · rw [hearly, complete_succ, complete_zero, step_tryDequeue hq hcontrol] at hstack
    exact absurd hstack (List.cons_ne_self _ _)
  · have hle : 2 ≤ k := by omega
    obtain ⟨h₀, s, hsecond⟩ := attempt_begins hq hcontrol (htwo ▸ hcalm 2 hle)
    have habove : (m.complete 2).IsAbove (Frame.IsAttempt name m.world.nextCall) m.stack := by
      rw [htwo, hsecond]
      exact ⟨[], _, rfl, ⟨rfl, rfl, rfl⟩, rfl⟩
    have hid : (m.complete 2).world.queueId? name = some q.id := by
      rw [htwo, hsecond]
      exact World.queueId?_of_get? hq
    rcases attempt_goes_on hle hcalm hid habove with ⟨hnow, -⟩ | ⟨j, hlt, hj, hover⟩
    · have hlonger := hnow.length_lt
      rw [hstack] at hlonger
      exact absurd hlonger (Nat.lt_irrefl _)
    · rcases Nat.eq_or_lt_of_le hj with rfl | hj
      · exact hover
      · have hlonger := hwithin j (by omega) hj
        rw [hover.stack] at hlonger
        exact absurd hlonger (Nat.lt_irrefl _)

/-- A removal from a queue in which nothing waits is over with its third step. -/
theorem Reachable.attempt_of_empty (h : m.Reachable) (hq : m.world.queues.get? name = some q)
    (hempty : m.world.queued q = [])
    (hcontrol : m.control = .perform (.onQueue name .tryDequeue))
    (hcalm : ∀ j ≤ 3, (m.complete j).IsCalm) :
    (m.complete 3).control = .answer (.taken none) ∧ (m.complete 3).stack = m.stack := by
  have hround := h.round_of_empty hq hempty
  have hcalm₂ := hcalm 2 (by decide)
  have hcalm₃ := hcalm 3 (Nat.le_refl 3)
  simp only [complete_succ, complete_zero] at hcalm₂ hcalm₃ ⊢
  obtain ⟨h₀, s, hsecond⟩ := attempt_begins hq hcontrol hcalm₂
  have hthird : m.step.step.step = continueDequeue
      { m with
        world := { (m.world.setSite m.thread s).emit (.hazardCreated h₀.record) with
          nextCall := m.world.nextCall + 1 }
        control := .resume }
      { queue := name, stage := .round m.world.nextCall h₀, goal := .once } := by
    rw [hsecond]
    rfl
  unfold continueDequeue at hthird
  simp only [World.emit, World.setSite, World.publish, World.mapRegistry, hq, withWorld,
    hround] at hthird
  rw [hthird] at hcalm₃ ⊢
  obtain ⟨w, -, fs, hstack, hgives⟩ := gives_of_calm hcalm₃
  generalize Run.control _ = k at hgives ⊢
  cases hgives
  exact ⟨rfl, hstack⟩

/-- What an attempt has removed it returns. -/
theorem Reaches.not_removed (h : Reaches IsCalm idle m) {l : List (Event V)}
    (hlast : m.world.history = .returned i c none :: l) {a : Address} {v : V} :
    .removed i c a v ∉ l := by
  intro hmem
  obtain ⟨-, -, hmatched⟩ := h.queues
  have hcalls : m.world.returnedCalls = c :: l.filterMap Event.returnedCall? := by
    rw [World.returnedCalls, hlast]
    rfl
  obtain ⟨hnodup, -, hdisjoint⟩ := List.nodup_append.1 hmatched.calls
  rw [hcalls] at hnodup hdisjoint
  have hremoved : (i, c, v) ∈ m.world.removals := by
    rw [World.removals, hlast]
    exact List.mem_filterMap.2 ⟨_, List.mem_cons_of_mem _ hmem, rfl⟩
  rcases List.mem_append.1 (hmatched.values.mem_iff.1 hremoved) with hreceipt | hsuspended
  · rw [World.receipts, hlast] at hreceipt
    have hearlier := World.call_mem_of_receipt (w := { m.world with history := l }) hreceipt
    exact (List.nodup_cons.1 hnodup).1 hearlier
  · obtain ⟨f, hf, hcall⟩ := List.mem_filterMap.1 hsuspended
    have hopen := List.mem_filterMap.2 ⟨f, hf, World.call_of_suspension hcall⟩
    exact hdisjoint c (List.mem_cons_self ..) c hopen rfl

/-- If an attempt ends with nothing although something waited when it began, another attempt has
removed a value from the queue meanwhile. -/
theorem Reaches.attempt_outrun (h : Reaches IsCalm idle m)
    (hq : m.world.queues.get? name = some q) (hwaits : m.world.queued q ≠ [])
    (hcontrol : m.control = .perform (.onQueue name .tryDequeue)) {k : Nat} (hk : 0 < k)
    (hcalm : ∀ j ≤ k, (m.complete j).IsCalm)
    (hwithin : ∀ j, 0 < j → j < k → m.stack.length < (m.complete j).stack.length)
    (hstack : (m.complete k).stack = m.stack)
    (hnone : (m.complete k).control = .answer (.taken none)) :
    ∃ new, (m.complete k).world.history =
        .returned q.id m.world.nextCall none :: (new ++ m.world.history) ∧
      ∃ c a v, .removed q.id c a v ∈ new ∧ c ≠ m.world.nextCall := by
  have hend : Reaches IsCalm idle (m.complete k) := h.complete k hcalm
  obtain ⟨l, hl⟩ := (attempt_ends hq hcontrol hk hcalm hwithin hstack).recorded none hnone
  have hsuffix : m.world.history <:+ (m.complete k).world.history :=
    Reaches.history_suffix (P := fun _ => True)
      (.complete (.refl trivial) k fun _ _ => trivial)
  obtain ⟨hordered, -, hmatched⟩ := h.queues
  have hnew : m.world.history <:+ l := by
    rcases List.suffix_cons_iff.1 (hl ▸ hsuffix) with heq | hnew
    · -- The attempt had not returned before it began.
      have hcall : m.world.nextCall ∈ m.world.returnedCalls := by
        rw [World.returnedCalls, heq]
        exact List.mem_cons_self ..
      exact absurd (hmatched.bounded _ (List.mem_append_left _ hcall)) (Nat.lt_irrefl _)
    · exact hnew
  obtain ⟨new, rfl⟩ := hnew
  refine ⟨new, hl, ?_⟩
  have hempty : linkedIn q.id (new ++ m.world.history) = removedIn q.id (new ++ m.world.history) :=
    hend.queues.2.1.past.of_suffix (c := m.world.nextCall) (hl ▸ List.suffix_rfl)
  have horder := hordered.order name q hq
  have hremoved : removedIn q.id new ≠ [] := fun hnothing => by
    have hlength := congrArg List.length hempty
    have hbefore := congrArg List.length horder
    rw [linkedIn_append, removedIn_append, hnothing, List.append_nil, List.length_append] at hlength
    rw [List.length_append] at hbefore
    have hpositive := List.length_pos_of_ne_nil hwaits
    omega
  obtain ⟨v, hv⟩ := List.exists_mem_of_ne_nil _ hremoved
  obtain ⟨e, he, hev⟩ := List.mem_filterMap.1 (List.mem_reverse.1 hv)
  cases e with
  | removed i' c' a v' =>
    obtain ⟨rfl, rfl⟩ : i' = q.id ∧ v' = v := by simpa [Event.removed?] using hev
    refine ⟨c', a, v', he, ?_⟩
    rintro rfl
    exact hend.not_removed hl (List.mem_append_left _ he)
  | _ => cases hev

end Run
end Reclaim
