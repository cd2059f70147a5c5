import Reclaim.Queue

set_option autoImplicit false

namespace Reclaim.Queue
variable {V : Type} {q q' : Queue} {nodes nodes' : Nodes V} {a : Address}

theorem counts_advanceTail (q : Queue) (current next : Address) :
    (q.advanceTail current next).id = q.id ∧
      (q.advanceTail current next).inserted = q.inserted ∧
      (q.advanceTail current next).removed = q.removed := by
  unfold advanceTail
  split <;> exact ⟨rfl, rfl, rfl⟩

theorem claim_taken {v : V} (h : q.claim nodes a = .taken v q' nodes') :
    ∃ n, nodes.get? a = some n ∧ n.slot.value? = some v ∧
      q' = { q with removed := q.removed + 1 } ∧
      nodes' = nodes.insert a { n with slot := .vacant } := by
  unfold claim at h
  split at h
  · simp at h
  · rename_i n hn
    split at h
    · simp at h
    · rename_i v' hv
      obtain ⟨rfl, rfl, rfl⟩ := by simpa using h
      exact ⟨n, hn, hv, rfl, rfl⟩

theorem claim_refused (h : q.claim nodes a = .refused) :
    ∃ n, nodes.get? a = some n ∧ n.slot.value? = none := by
  unfold claim at h
  split at h
  · simp at h
  · rename_i n hn
    split at h
    · rename_i hv
      exact ⟨n, hn, hv⟩
    · simp at h

theorem claim_dangling {b : Address} (h : q.claim nodes a = .dangling b) :
    nodes.get? a = none := by
  unfold claim at h
  split at h
  · assumption
  · split at h <;> simp at h

theorem enqueueRound_linked (h : q.enqueueRound nodes a = .linked q' nodes') :
    ∃ t last, q.tail = some t ∧ nodes.get? t = some last ∧ last.next = none ∧
      q' = { q with tail := some a } ∧ nodes' = nodes.insert t { last with next := some a } := by
  unfold enqueueRound at h
  split at h
  · simp at h
  · rename_i t ht
    split at h
    · simp at h
    · rename_i last hlast
      split at h
      · rename_i hnext
        obtain ⟨rfl, rfl⟩ := by simpa using h
        exact ⟨t, last, ht, hlast, hnext, by simp [advanceTail, ht], rfl⟩
      · simp at h

theorem enqueueRound_helped (h : q.enqueueRound nodes a = .helped q') :
    ∃ t last next, q.tail = some t ∧ nodes.get? t = some last ∧ last.next = some next ∧
      q' = q.advanceTail t next := by
  unfold enqueueRound at h
  split at h
  · simp at h
  · rename_i t ht
    split at h
    · simp at h
    · rename_i last hlast
      split at h
      · simp at h
      · rename_i next hnext
        exact ⟨t, last, next, ht, hlast, hnext, by simpa using h.symm⟩

theorem enqueueRound_dangling {b : Address} (h : q.enqueueRound nodes a = .dangling b) :
    q.tail = some b ∧ nodes.get? b = none := by
  unfold enqueueRound at h
  split at h
  · simp at h
  · rename_i t ht
    split at h
    · rename_i hnone
      obtain rfl := by simpa using h
      exact ⟨ht, hnone⟩
    · split at h <;> simp at h

theorem dequeueRound_claimed {v : V} (h : q.dequeueRound nodes = .claimed v q' nodes') :
    ∃ b n, q.head = some b ∧ q.tail = some b ∧ nodes.get? b = some n ∧ n.slot.value? = some v ∧
      q' = { q with removed := q.removed + 1 } ∧
      nodes' = nodes.insert b { n with slot := .vacant } := by
  unfold dequeueRound at h
  split at h
  · simp at h
  · rename_i b hb
    split at h
    · simp at h
    · split at h
      · rename_i ht
        split at h
        · rename_i hclaim
          obtain ⟨rfl, rfl, rfl⟩ := by simpa using h
          obtain ⟨n, hn, hv, hq, hnodes⟩ := claim_taken hclaim
          exact ⟨b, n, hb, ht, hn, hv, hq, hnodes⟩
        · simp at h
        · split at h <;> simp at h
      · split at h
        · simp at h
        · split at h <;> simp at h

theorem dequeueRound_empty (h : q.dequeueRound nodes = .empty) :
    ∃ b n, q.head = some b ∧ q.tail = some b ∧ nodes.get? b = some n ∧ n.slot.value? = none ∧
      n.next = none := by
  unfold dequeueRound at h
  split at h
  · simp at h
  · rename_i b hb
    split at h
    · simp at h
    · rename_i n hn
      split at h
      · rename_i ht
        split at h
        · simp at h
        · simp at h
        · rename_i hclaim
          split at h
          · rename_i hnext
            obtain ⟨n', hn', hv⟩ := claim_refused hclaim
            obtain rfl := Option.some.inj (hn.symm.trans hn')
            exact ⟨b, n, hb, ht, hn, hv, hnext⟩
          · simp at h
      · split at h
        · simp at h
        · split at h <;> simp at h

theorem dequeueRound_helped (h : q.dequeueRound nodes = .helped q') :
    ∃ t last next, q.tail = some t ∧ nodes.get? t = some last ∧ last.next = some next ∧
      q' = q.advanceTail t next := by
  unfold dequeueRound at h
  split at h
  · simp at h
  · rename_i b hb
    split at h
    · simp at h
    · rename_i n hn
      split at h
      · rename_i ht
        split at h
        · simp at h
        · simp at h
        · split at h
          · simp at h
          · rename_i next hnext
            exact ⟨b, n, next, ht, hn, hnext, by simpa using h.symm⟩
      · split at h
        · simp at h
        · split at h <;> simp at h

theorem dequeueRound_unlinked (h : q.dequeueRound nodes = .unlinked a q') :
    ∃ n next, q.head = some a ∧ q.tail ≠ some a ∧ nodes.get? a = some n ∧ n.next = some next ∧
      q' = { q with head := some next } := by
  unfold dequeueRound at h
  split at h
  · simp at h
  · rename_i b hb
    split at h
    · simp at h
    · rename_i n hn
      split at h
      · split at h
        · simp at h
        · simp at h
        · split at h <;> simp at h
      · rename_i ht
        split at h
        · simp at h
        · rename_i next hnext
          split at h
          · simp at h
          · rename_i q₁ hq₁
            obtain ⟨rfl, rfl⟩ := by simpa using h
            refine ⟨n, next, hb, ht, hn, hnext, ?_⟩
            simpa [exchangeHead, hb] using hq₁.symm

theorem dequeueRound_dangling (h : q.dequeueRound nodes = .dangling a) :
    q.head = some a ∧ nodes.get? a = none := by
  unfold dequeueRound at h
  split at h
  · simp at h
  · rename_i b hb
    split at h
    · rename_i hnone
      obtain rfl := by simpa using h
      exact ⟨hb, hnone⟩
    · rename_i n hn
      split at h
      · split at h
        · simp at h
        · rename_i hclaim
          simp [claim_dangling hclaim] at hn
        · split at h <;> simp at h
      · split at h
        · simp at h
        · split at h <;> simp at h

end Reclaim.Queue
