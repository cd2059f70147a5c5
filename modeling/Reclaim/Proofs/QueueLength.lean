import Reclaim.Proofs.DroppedQueues
import Reclaim.Proofs.RemovalAttempts

/-!
The length of a queue. Without a panic the counters of a queue differ by the number of values that
wait in it and of those that suspended attempts have unlinked (`Run.LengthExact`), so that between
operations its length says what an iteration, a removal and the end of the queue find in it.
-/

set_option autoImplicit false

namespace Reclaim
variable {V : Type}

def Control.taken? : Control V → Option (Option V)
  | .answer (.taken v) => some v
  | _ => none

theorem Control.eq_of_taken? {c : Control V} {v : Option V} (h : c.taken? = some v) :
    c = .answer (.taken v) := by
  unfold taken? at h
  split at h
  · rw [Option.some.inj h]
  · cases h

namespace Run
variable {m : Run V} {name : Name} {q : Queue}

/-- What the counters of a queue say about it. `ps` are the values that wait in its chain. -/
structure LengthExact (m : Run V) (name : Name) (q : Queue) (ps : List (Payload V)) : Prop where
  values : q.values m.world.memory.nodes = some ps
  ordered : q.removed.toNat ≤ q.inserted.toNat
  counted : q.inserted.toNat - q.removed.toNat =
    ps.length + m.interruptions.countP (·.1 = q.id)
  length : m.isBusy name = false →
    m.onQueue name .length = m.answer (.length ps.length ps.isEmpty false)
  iterated : m.isBusy name = false →
    m.onQueue name .values = m.answer (.values (ps.map (·.value)))
  /-- An attempt to remove a value of an empty queue finds nothing. -/
  empty : q.isEmpty = true → m.control = .perform (.onQueue name .tryDequeue) →
    (∀ j ≤ 3, (m.complete j).IsCalm) →
      (m.complete 3).control = .answer (.taken none) ∧ (m.complete 3).stack = m.stack
  /-- If an attempt finds nothing although the queue is not empty, another attempt has removed a
  value meanwhile. -/
  outrun : m.isBusy name = false → q.isEmpty = false →
    m.control = .perform (.onQueue name .tryDequeue) → ∀ k > 0,
      (∀ j ≤ k, (m.complete j).IsCalm) →
      (∀ j, 0 < j → j < k → m.stack.length < (m.complete j).stack.length) →
      (m.complete k).stack = m.stack → (m.complete k).control = .answer (.taken none) →
        ∃ new, (m.complete k).world.history =
            .returned q.id m.world.nextCall none :: (new ++ m.world.history) ∧
          ∃ c a v, .removed q.id c a v ∈ new ∧ c ≠ m.world.nextCall
  dropped : m.outcome.isSome = true → ∀ t, (m.world.thread t).phase ≠ .exited →
    (∀ k, (m.after ⟨t, .dropQueue name⟩ k).IsCalm) →
    (m.world.begin ⟨t, .dropQueue name⟩).ScriptsEnd →
      ∃ k vs, (m.after ⟨t, .dropQueue name⟩ k).outcome = some (.ok .done) ∧
        (m.after ⟨t, .dropQueue name⟩ k).world.drops = vs ++ m.world.drops ∧
        vs.Perm (ps.map (·.value)) ∧ vs.length = q.size

theorem Reaches.forfeits_eq_nil (h : Reaches IsCalm idle m) : m.forfeits = [] :=
  List.perm_nil.1 (forfeits_perm (World.settled_nil.2 h.queues.2.2))

/-- No more removals are counted than insertions. -/
theorem Reachable.removed_le (h : m.Reachable) (hq : m.world.queues.get? name = some q)
    (hfew : (linkedIn q.id m.world.history).length < UInt64.size) :
    q.removed.toNat ≤ q.inserted.toNat := by
  obtain ⟨hinserted, hremoved⟩ := h.counters_eq hq hfew
  have hlength := congrArg List.length (h.settled.1.order name q hq)
  rw [List.length_append] at hlength
  omega

/-- No attempt holds a value of a queue on which no operation is suspended. -/
theorem countP_interruptions_of_idle (hordered : m.world.Ordered)
    (hq : m.world.queues.get? name = some q) (hbusy : m.isBusy name = false) :
    m.interruptions.countP (·.1 = q.id) = 0 := by
  refine List.countP_eq_zero.2 fun x hx => ?_
  obtain ⟨f, hf, hfx⟩ := List.mem_filterMap.1 hx
  have hother := List.any_eq_false.1 hbusy f hf
  unfold interruption at hfx
  split at hfx
  · obtain ⟨q', hq', hfx⟩ := Option.bind_eq_some_iff.1 hfx
    obtain ⟨p, -, hfx⟩ := Option.bind_eq_some_iff.1 hfx
    obtain rfl := Option.some.inj hfx
    intro hid
    obtain rfl := hordered.unique _ _ _ _ hq' hq (of_decide_eq_true hid)
    exact hother (beq_self_eq_true _)
  · cases hfx

theorem exclusively_of_idle {α : Type} (hbusy : m.isBusy name = false) (a : α) (f : α → Run V) :
    m.exclusively name q (some a) f = f a := by
  rw [exclusively, hbusy]
  rfl

/-- The counters of a queue are exact at every moment, also inside a destructor that runs while an
operation on the queue is suspended. When none is, the length of the queue is the number of the
values that an iteration gives, a removal from an empty queue finds nothing and one from another
queue finds something unless a destructor inside it has removed a value, and the end of the queue
drops as many values as its length says. -/
theorem Reaches.length_exact (h : Reaches IsCalm idle m)
    (hq : m.world.queues.get? name = some q)
    (hfew : (linkedIn q.id m.world.history).length < UInt64.size) :
    ∃ ps, m.LengthExact name q ps := by
  obtain ⟨ps, hvalues, horder, hsize⟩ := h.reachable.size_eq hq hfew
  rw [h.forfeits_eq_nil, List.countP_nil, Nat.add_zero] at hsize
  have hordered := h.queues.1
  have hqueued : m.world.queued q = ps.map (·.value) :=
    List.append_cancel_left ((hordered.order name q hq).symm.trans horder)
  have hidle (hbusy : m.isBusy name = false) : q.size = ps.length := by
    rw [hsize, countP_interruptions_of_idle hordered hq hbusy, Nat.add_zero]
  refine ⟨ps, hvalues, h.reachable.removed_le hq hfew, hsize, ?_, ?_, ?_, ?_, ?_⟩
  · intro hbusy
    unfold onQueue
    simp only [hq]
    rw [Queue.isEmpty, hidle hbusy]
    cases ps <;> rfl
  · intro hbusy
    unfold onQueue
    simp only [hq, hvalues]
    exact exclusively_of_idle hbusy ps _
  · intro hempty hcontrol hcalm
    have hnone : ps.length = 0 := by
      have hzero : q.size = 0 := eq_of_beq hempty
      omega
    rw [List.length_eq_zero_iff.1 hnone] at hqueued
    exact h.reachable.attempt_of_empty hq hqueued hcontrol hcalm
  · intro hbusy hempty hcontrol k hk hcalm hwithin hstack hnone
    refine h.attempt_outrun hq ?_ hcontrol hk hcalm hwithin hstack hnone
    intro hnothing
    rw [hnothing] at hqueued
    rw [Queue.isEmpty, hidle hbusy, ← List.length_map (fun p => p.value), ← hqueued] at hempty
    cases hempty
  · intro ho t hphase hcalm hends
    have hbusy : m.isBusy name = false := by
      rw [isBusy, stack_of_outcome ho]
      rfl
    obtain ⟨k, vs, hdone, hdrops, hperm⟩ := h.dropped_values ho hq hphase hcalm hends
    rw [hqueued] at hperm
    refine ⟨k, vs, hdone, hdrops, hperm, ?_⟩
    rw [hperm.length_eq, List.length_map, hidle hbusy]

/-- One value waits, and a record is retired whose destructor removes a value from the same queue.
The thread is about to remove a value, and is going to unlink a node that brings this record to
reclamation. -/
def overtaken : Run Nat := idle.following
  (tell 0 9 [.install { minRecords := some 2 }, .createQueue "queue" .yield,
    .onQueue "queue" (.enqueue 1 []), .create "record" [⟨none, .onQueue "queue" .tryDequeue⟩],
    .retire "record" .boxed] ++
  tell 0 0 [.onQueue "queue" .tryDequeue])

theorem overtaken_calmly : Reaches IsCalm idle overtaken :=
  .following (.refl (by decide)) _ (by decide +kernel)

theorem overtaken_finds_none :
    (overtaken.complete 13).control = .answer (.taken none) ∧ (overtaken.complete 13).stack = [] := by
  have hnone : (overtaken.complete 13).control.taken? = some none := by decide +kernel
  exact ⟨Control.eq_of_taken? hnone, List.isEmpty_iff.1 (by decide +kernel)⟩

/-- The queue is not empty, and yet the removal finds nothing. -/
theorem overtaken_misses :
    Reaches IsCalm idle overtaken ∧ overtaken.isBusy "queue" = false ∧
      (overtaken.world.queues.get? "queue").map (fun q => (q.size, q.isEmpty)) = some (1, false) ∧
      overtaken.control = .perform (.onQueue "queue" .tryDequeue) ∧
      (∀ k, (overtaken.complete k).IsCalm) ∧
      (overtaken.complete 13).outcome = some (.ok (.taken none)) := by
  obtain ⟨hcontrol, hstack⟩ := overtaken_finds_none
  have hdone : (overtaken.complete 13).outcome = some (.ok (.taken none)) := by
    rw [outcome, hcontrol, hstack]
  refine ⟨overtaken_calmly, by decide +kernel, by decide +kernel, rfl, ?_, hdone⟩
  exact forall_complete (k := 13) (by rw [hdone]; rfl) (P := IsCalm) (by decide +kernel)

/-- The removal is overtaken by another one. Between operations, and also while an attempt holds a
value of a queue that has no other, the length is exact. -/
theorem overtaken_exact :
    (∃ q ps, overtaken.world.queues.get? "queue" = some q ∧ overtaken.LengthExact "queue" q ps ∧
      q.size = 1 ∧ ps.length = 1 ∧
      ∃ new, (overtaken.complete 13).world.history =
          .returned 0 0 none :: (new ++ overtaken.world.history) ∧
        ∃ c a v, .removed 0 c a v ∈ new ∧ c ≠ 0) ∧
      ∃ q ps, nested.world.queues.get? "queue" = some q ∧ nested.LengthExact "queue" q ps ∧
        nested.interruptions = [(0, 1, 8)] ∧ q.size = 1 ∧ ps.length = 0 := by
  constructor
  · have hthere : (overtaken.world.queues.get? "queue").isSome = true := by decide +kernel
    obtain ⟨q, hq⟩ := Option.isSome_iff_exists.1 hthere
    have hread : (overtaken.world.queues.get? "queue").map (fun q => (q.id, q.size, q.isEmpty)) =
        some (0, 1, false) := by decide +kernel
    rw [hq] at hread
    obtain ⟨hid, hsize, hempty⟩ : q.id = 0 ∧ q.size = 1 ∧ q.isEmpty = false := by
      simpa using hread
    have hfew : (linkedIn q.id overtaken.world.history).length < UInt64.size := by
      rw [hid]
      decide +kernel
    obtain ⟨ps, hps⟩ := overtaken_calmly.length_exact hq hfew
    have hidle : overtaken.interruptions = [] := by decide +kernel
    have hcounted := hps.counted
    rw [hidle] at hcounted
    obtain ⟨hcontrol, hstack⟩ := overtaken_finds_none
    have hwithin : ∀ j < 13, 0 < j →
        overtaken.stack.length < (overtaken.complete j).stack.length := by decide +kernel
    have hcall : overtaken.world.nextCall = 0 := by decide +kernel
    obtain ⟨new, hnew, c, a, v, hremoved, hother⟩ := hps.outrun (by decide +kernel) hempty rfl 13
      (by decide) (by decide +kernel) (fun j hj hlt => hwithin j hlt hj) hstack hcontrol
    rw [hid, hcall] at hnew
    rw [hid] at hremoved
    rw [hcall] at hother
    exact ⟨q, ps, hq, hps, hsize, hcounted.symm.trans hsize, new, hnew, c, a, v, hremoved, hother⟩
  · have hthere : (nested.world.queues.get? "queue").isSome = true := by decide +kernel
    obtain ⟨q, hq⟩ := Option.isSome_iff_exists.1 hthere
    have hread : (nested.world.queues.get? "queue").map (fun q => (q.id, q.size)) =
        some (0, 1) := by decide +kernel
    rw [hq] at hread
    obtain ⟨hid, hsize⟩ : q.id = 0 ∧ q.size = 1 := by simpa using hread
    have hfew : (linkedIn q.id nested.world.history).length < UInt64.size := by
      rw [hid]
      decide +kernel
    obtain ⟨ps, hps⟩ := nested_calmly.length_exact hq hfew
    have hsuspended : nested.interruptions = [(0, 1, 8)] := by decide +kernel
    have hcounted : q.size = _ := hps.counted
    rw [hsize, hsuspended, hid] at hcounted
    have hone : [((0 : QueueId), (1 : CallId), 8)].countP (·.1 = 0) = 1 := rfl
    exact ⟨q, ps, hq, hps, hsuspended, hsize, by omega⟩

end Run
end Reclaim
