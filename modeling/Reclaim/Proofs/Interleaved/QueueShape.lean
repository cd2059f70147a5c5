import Reclaim.Proofs.Chains
import Reclaim.Proofs.Interleaved.QueueHistory

/-!
The chain of an interleaved queue. The nodes form one path in the order in which they were linked,
behind the node that the queue was created with. The head is at place `i` of it and the tail at
place `j`, which is never before the head; both only move forward. The nodes before place `i` were
unlinked.
-/

set_option autoImplicit false

namespace Reclaim

namespace Nodes.Path
variable {V : Type} {nodes : Nodes V} {start : Option Address} {a : Address} {l : List Address}

theorem start_eq (h : Path nodes start l) : start = l[0]? := by
  cases h <;> rfl

theorem drop (h : Path nodes start l) (k : Nat) : Path nodes l[k]? (l.drop k) := by
  induction h generalizing k with
  | nil =>
    rw [List.getElem?_nil, List.drop_nil]
    exact .nil
  | cons hn hrest ih =>
    cases k with
    | zero => exact .cons hn hrest
    | succ k => exact ih k

theorem next_eq (h : Path nodes start l) {k : Nat} (hk : l[k]? = some a) :
    (nodes.get? a).bind (·.next) = l[k + 1]? := by
  have hdrop : l.drop k = a :: l.drop (k + 1) := by
    rw [List.drop_eq_getElem?_toList_append, hk]
    rfl
  have hrest := h.drop k
  rw [hk, hdrop] at hrest
  cases hrest with
  | cons hn hrest =>
    rw [hn, Option.bind_some, hrest.start_eq, List.getElem?_drop, Nat.add_zero]

end Nodes.Path

namespace Interleaved
variable {V : Type} {s : Shared V} {ls rs : List (Address × V)} {i j : Nat} {a b c : Address}
  {v : V}

namespace Shared

def pair? (s : Shared V) (a : Address) : Option (Address × V) :=
  (s.slotOf a).value?.map fun v => (a, v)

theorem pair?_eq_some {x : Address × V} :
    s.pair? a = some x ↔ s.slotOf a = .full x.2 ∧ x.1 = a := by
  rw [pair?]
  cases s.slotOf a <;> simp [Slot.value?, Prod.ext_iff, eq_comm, and_comm]

theorem pair?_of_full (h : s.slotOf a = .full v) : s.pair? a = some (a, v) :=
  pair?_eq_some.2 ⟨h, rfl⟩

theorem pair?_of_not_full (h : ∀ v, s.slotOf a ≠ .full v) : s.pair? a = none :=
  Option.eq_none_iff_forall_not_mem.2 fun x hx => h x.2 (pair?_eq_some.1 hx).1

theorem slotOf_setSlot (ha : (s.nodes.get? a).isSome = true) (slot : Slot V) (b : Address) :
    (s.setSlot a slot).slotOf b = if b = a then slot else s.slotOf b := by
  obtain ⟨n, hn⟩ := Option.isSome_iff_exists.1 ha
  simp only [slotOf, setSlot, Table.get?_modify]
  split
  · rename_i hb
    simp [hb, hn]
  · rfl

theorem nextOf_setSlot (slot : Slot V) (b : Address) :
    (s.setSlot a slot).nextOf b = s.nextOf b := by
  simp only [nextOf, setSlot, Table.get?_modify]
  split
  · cases s.nodes.get? b <;> rfl
  · rfl

theorem slotOf_setNext (b : Address) : (s.setNext a c).slotOf b = s.slotOf b := by
  simp only [slotOf, setNext, Table.get?_modify]
  split
  · cases s.nodes.get? b <;> rfl
  · rfl

theorem nextOf_setNext (ha : (s.nodes.get? a).isSome = true) (b : Address) :
    (s.setNext a c).nextOf b = if b = a then some c else s.nextOf b := by
  obtain ⟨n, hn⟩ := Option.isSome_iff_exists.1 ha
  simp only [nextOf, setNext, Table.get?_modify]
  split
  · rename_i hb
    simp [hb, hn]
  · rfl

theorem isSome_setNext (b : Address) :
    ((s.setNext a c).nodes.get? b).isSome = (s.nodes.get? b).isSome := by
  simp only [setNext, Table.get?_modify]
  split
  · cases s.nodes.get? b <;> rfl
  · rfl

end Shared

/-- The nodes in the order in which they were linked, behind the first one. -/
def order (ls : List (Address × V)) : List Address := 1 :: ls.map (·.1)

theorem order_append (ls : List (Address × V)) (x : Address × V) :
    order (ls ++ [x]) = order ls ++ [x.1] := by
  simp [order]

theorem mem_order_of_mem_links {x : Address × V} (h : x ∈ ls) : x.1 ∈ order ls :=
  List.mem_cons_of_mem _ (List.mem_map_of_mem h)

structure Shape (s : Shared V) (ls : List (Address × V)) (i j : Nat) : Prop where
  path : Nodes.Path s.nodes (some 1) (order ls)
  head : s.queue.head = (order ls)[i]?
  tail : s.queue.tail = (order ls)[j]?
  le : i ≤ j
  lt : j < (order ls).length

theorem mem_take {l : List Address} {k : Nat} : a ∈ l.take k ↔ ∃ m < k, l[m]? = some a := by
  simp only [List.mem_iff_getElem?, List.getElem?_take]
  constructor
  · rintro ⟨m, hm⟩
    split at hm
    · exact ⟨m, ‹_›, hm⟩
    · cases hm
  · rintro ⟨m, hlt, hm⟩
    exact ⟨m, by rw [if_pos hlt, hm]⟩

namespace Shape

theorem nodup (h : Shape s ls i j) : (order ls).Nodup := h.path.nodup

theorem front_lt (h : Shape s ls i j) : i < (order ls).length := Nat.lt_of_le_of_lt h.le h.lt

theorem isSome (h : Shape s ls i j) (ha : a ∈ order ls) : (s.nodes.get? a).isSome = true :=
  h.path.isSome ha

theorem nextOf_eq (h : Shape s ls i j) {k : Nat} (hk : (order ls)[k]? = some a) :
    s.nextOf a = (order ls)[k + 1]? :=
  h.path.next_eq hk

theorem place_unique (h : Shape s ls i j) {k m : Nat} (hk : (order ls)[k]? = some a)
    (hm : (order ls)[m]? = some a) : k = m := by
  obtain ⟨hlt, -⟩ := List.getElem?_eq_some_iff.1 hk
  exact (List.getElem?_inj hlt h.nodup).1 (hk.trans hm.symm)

/-- A node up to the head is the head or was unlinked. -/
theorem mem_take_succ (h : Shape s ls i j) :
    a ∈ (order ls).take (i + 1) ↔ a ∈ (order ls).take i ∨ s.queue.head = some a := by
  rw [List.take_add_one, List.mem_append, Option.mem_toList, h.head]

theorem head_mem (h : Shape s ls i j) (ha : s.queue.head = some a) : a ∈ order ls :=
  List.mem_of_getElem? (h.head.symm.trans ha)

theorem tail_mem (h : Shape s ls i j) (ha : s.queue.tail = some a) : a ∈ order ls :=
  List.mem_of_getElem? (h.tail.symm.trans ha)

theorem drop_eq (h : Shape s ls i j) (ha : s.queue.head = some a) :
    (order ls).drop i = a :: (order ls).drop (i + 1) := by
  rw [List.drop_eq_getElem?_toList_append, ← h.head, ha]
  rfl

theorem not_mem_drop (h : Shape s ls i j) (ha : a ∈ (order ls).take i) :
    a ∉ (order ls).drop i := by
  have hnodup := h.nodup
  rw [← List.take_append_drop i (order ls)] at hnodup
  exact fun hdrop => (List.nodup_append.1 hnodup).2.2 a ha a hdrop rfl

/-- A node up to the head that has no next one is the only one that is left. -/
theorem drop_of_last (h : Shape s ls i j) (ha : a ∈ (order ls).take (i + 1))
    (hnext : s.nextOf a = none) : (order ls).drop i = [a] := by
  obtain ⟨k, hki, hk⟩ := mem_take.1 ha
  rw [h.nextOf_eq hk, List.getElem?_eq_none_iff] at hnext
  have hlt := h.lt
  have hle := h.le
  obtain rfl : k = i := by omega
  rw [List.drop_eq_getElem?_toList_append, hk, List.drop_eq_nil_of_le hnext]
  rfl

/-- A node up to the head that is not the tail was overtaken by the tail. -/
theorem mem_take_of_ne_tail (h : Shape s ls i j) (ha : a ∈ (order ls).take (i + 1))
    (hne : s.queue.tail ≠ some a) : a ∈ (order ls).take j := by
  obtain ⟨k, hki, hk⟩ := mem_take.1 ha
  have hkj : k ≠ j := by
    rintro rfl
    exact hne (h.tail.trans hk)
  have hle := h.le
  exact mem_take.2 ⟨k, by omega, hk⟩

theorem eq_append_of_last (h : Shape s ls i j) (ha : a ∈ order ls) (hnext : s.nextOf a = none) :
    ∃ l, order ls = l ++ [a] := by
  obtain ⟨k, hk⟩ := List.mem_iff_getElem?.1 ha
  rw [h.nextOf_eq hk, List.getElem?_eq_none_iff] at hnext
  refine ⟨(order ls).take k, ?_⟩
  conv_lhs => rw [← List.take_append_drop k (order ls), List.drop_eq_getElem?_toList_append, hk,
    List.drop_eq_nil_of_le hnext]
  rfl

theorem count (h : Shape s ls i j) {q : Queue} (hhead : q.head = s.queue.head)
    (htail : q.tail = s.queue.tail) : Shape { s with queue := q } ls i j :=
  ⟨h.path, hhead.trans h.head, htail.trans h.tail, h.le, h.lt⟩

theorem advanceTail (h : Shape s ls i j) (hnext : s.nextOf a = some b) :
    ∃ j', j ≤ j' ∧ Shape (s.mapQueue (·.advanceTail a b)) ls i j' := by
  by_cases htail : s.queue.tail = some a
  · have hb : (order ls)[j + 1]? = some b := by
      rw [← h.nextOf_eq (h.tail.symm.trans htail), hnext]
    obtain ⟨hlt, -⟩ := List.getElem?_eq_some_iff.1 hb
    refine ⟨j + 1, Nat.le_succ j, h.path, ?_, ?_, Nat.le_succ_of_le h.le, hlt⟩
    · simp [Shared.mapQueue, Queue.advanceTail, htail, h.head]
    · simp [Shared.mapQueue, Queue.advanceTail, htail, hb]
  · refine ⟨j, Nat.le_refl j, ?_⟩
    have hsame : s.mapQueue (·.advanceTail a b) = s := by
      simp [Shared.mapQueue, Queue.advanceTail, htail]
    rwa [hsame]

/-- Only a head that the tail has overtaken is unlinked. -/
theorem exchangeHead (h : Shape s ls i j) {q : Queue} (hq : s.queue.exchangeHead a b = some q)
    (ha : a ∈ (order ls).take j) (hnext : s.nextOf a = some b) :
    Shape { s with queue := q } ls (i + 1) j := by
  unfold Queue.exchangeHead at hq
  split at hq
  · rename_i hhead
    obtain rfl := Option.some.inj hq
    have hi := h.head.symm.trans hhead
    obtain ⟨k, hkj, hk⟩ := mem_take.1 ha
    obtain rfl := h.place_unique hk hi
    exact ⟨h.path, hnext.symm.trans (h.nextOf_eq hi), h.tail, hkj, h.lt⟩
  · cases hq

theorem setSlot (h : Shape s ls i j) (slot : Slot V) : Shape (s.setSlot a slot) ls i j := by
  refine ⟨h.path.congr fun b _ => ?_, h.head, h.tail, h.le, h.lt⟩
  simp only [Shared.setSlot, Table.get?_modify]
  split
  · cases s.nodes.get? b <;> rfl
  · rfl

theorem insert (h : Shape s ls i j) (ha : s.nodes.get? a = none) (n : Node V) :
    Shape { s with nodes := s.nodes.insert a n } ls i j := by
  refine ⟨h.path.insert (fun hmem => ?_) n, h.head, h.tail, h.le, h.lt⟩
  have hcell := h.isSome hmem
  rw [ha] at hcell
  cases hcell

theorem link (h : Shape s ls i j) (ha : a ∈ order ls) (hnext : s.nextOf a = none)
    (hb : b ∉ order ls) (hcell : (s.nodes.get? b).isSome = true) (hbnext : s.nextOf b = none) :
    Shape (s.setNext a b) (ls ++ [(b, v)]) i j := by
  obtain ⟨n, hn⟩ := Option.isSome_iff_exists.1 hcell
  obtain ⟨last, hlast⟩ := Option.isSome_iff_exists.1 (h.isSome ha)
  obtain ⟨l, hl⟩ := h.eq_append_of_last ha hnext
  have hpath := h.path
  have hlt := h.lt
  rw [Shared.nextOf, hn, Option.bind_some] at hbnext
  have horder : order (ls ++ [(b, v)]) = l ++ [a, b] := by
    rw [order_append, hl, List.append_assoc]
    rfl
  refine ⟨?_, ?_, ?_, h.le, ?_⟩
  · rw [hl] at hpath hb
    rw [horder]
    apply (hpath.extend hlast hb hn hbnext).congr
    intro c _
    simp only [Shared.setNext, Table.get?_modify, Table.get?_insert]
    split
    · rename_i hc
      simp [hc, hlast]
    · rfl
  · rw [order_append, List.getElem?_append_left h.front_lt]
    exact h.head
  · rw [order_append, List.getElem?_append_left hlt]
    exact h.tail
  · rw [order_append, List.length_append]
    omega

end Shape

/-- What is in a node of the chain came in with it, and of the values that were linked those that
were removed come first and those that wait follow. -/
structure Contents (s : Shared V) (ls rs : List (Address × V)) (i : Nat) : Prop where
  content : ∀ a ∈ order ls, ∀ v, s.slotOf a = .full v ∨ s.slotOf a = .claimed v → (a, v) ∈ ls
  split : ls = rs ++ ((order ls).drop i).filterMap s.pair?

namespace Contents

theorem congr (h : Contents s ls rs i) {s' : Shared V}
    (hsame : ∀ a ∈ order ls, s'.slotOf a = s.slotOf a) : Contents s' ls rs i := by
  refine ⟨fun a ha v hv => h.content a ha v (by rwa [← hsame a ha]), h.split.trans ?_⟩
  congr 1
  apply List.filterMap_congr
  intro a ha
  rw [Shared.pair?, Shared.pair?, hsame a (List.mem_of_mem_drop ha)]

theorem link (h : Contents s ls rs i) (hi : i < (order ls).length) (hv : s.slotOf b = .full v) :
    Contents (s.setNext a b) (ls ++ [(b, v)]) rs i := by
  have hpair : (s.setNext a b).pair? = s.pair? := by
    funext c
    rw [Shared.pair?, Shared.pair?, Shared.slotOf_setNext]
  refine ⟨?_, ?_⟩
  · intro c hc w hw
    rw [Shared.slotOf_setNext] at hw
    rw [order_append, List.mem_append, List.mem_singleton] at hc
    rcases hc with hc | rfl
    · exact List.mem_append_left _ (h.content c hc w hw)
    · rw [hv] at hw
      obtain rfl : v = w := by simpa using hw
      exact List.mem_append_right _ (List.mem_singleton_self _)
  · rw [order_append, List.drop_append_of_le_length (Nat.le_of_lt hi), List.filterMap_append, hpair,
      ← List.append_assoc, ← h.split, List.filterMap_cons, Shared.pair?_of_full hv,
      List.filterMap_nil]

/-- With another slot in a node of the chain the values wait that waited, up to those in `xs`. -/
theorem setSlot (h : Contents s ls rs i) (hs : Shape s ls i j) (ha : a ∈ order ls)
    {slot : Slot V} {xs : List (Address × V)}
    (hin : ∀ v, slot = .full v ∨ slot = .claimed v → (a, v) ∈ ls)
    (hwait : ((order ls).drop i).filterMap s.pair? =
      xs ++ ((order ls).drop i).filterMap (s.setSlot a slot).pair?) :
    Contents (s.setSlot a slot) ls (rs ++ xs) i := by
  refine ⟨?_, ?_⟩
  · intro b hb v hv
    rw [Shared.slotOf_setSlot (hs.isSome ha)] at hv
    split at hv
    · rename_i hba
      exact hba ▸ hin v hv
    · exact h.content b hb v hv
  · rw [List.append_assoc, ← hwait]
    exact h.split

theorem pair?_setSlot (ha : (s.nodes.get? a).isSome = true) {slot : Slot V} {l : List Address}
    (hl : a ∉ l) : l.filterMap (s.setSlot a slot).pair? = l.filterMap s.pair? := by
  apply List.filterMap_congr
  intro b hb
  rw [Shared.pair?, Shared.pair?, Shared.slotOf_setSlot ha, if_neg (ne_of_mem_of_not_mem hb hl)]

theorem claim_head (h : Contents s ls rs i) (hs : Shape s ls i j) (ha : s.queue.head = some a)
    (hv : s.slotOf a = .full v) : Contents (s.setSlot a (.claimed v)) ls (rs ++ [(a, v)]) i := by
  have hcell := hs.isSome (hs.head_mem ha)
  have hrest : a ∉ (order ls).drop (i + 1) := by
    have hnodup := hs.nodup.sublist (List.drop_sublist i _)
    rw [hs.drop_eq ha] at hnodup
    exact (List.nodup_cons.1 hnodup).1
  have hnone : (s.setSlot a (.claimed v)).pair? a = none := by
    rw [Shared.pair?, Shared.slotOf_setSlot hcell, if_pos rfl]
    rfl
  refine h.setSlot hs (hs.head_mem ha) ?_ ?_
  · intro w hw
    obtain rfl : v = w := by simpa using hw
    exact h.content a (hs.head_mem ha) v (.inl hv)
  · rw [hs.drop_eq ha, List.filterMap_cons, List.filterMap_cons, Shared.pair?_of_full hv, hnone,
      pair?_setSlot hcell hrest]
    rfl

theorem claim_unlinked (h : Contents s ls rs i) (hs : Shape s ls i j)
    (ha : a ∈ (order ls).take i) (hv : s.slotOf a = .full v) :
    Contents (s.setSlot a (.claimed v)) ls rs i := by
  have hmem := List.mem_of_mem_take ha
  rw [← List.append_nil rs]
  refine h.setSlot hs hmem ?_ ?_
  · intro w hw
    obtain rfl : v = w := by simpa using hw
    exact h.content a hmem v (.inl hv)
  · rw [pair?_setSlot (hs.isSome hmem) (hs.not_mem_drop ha), List.nil_append]

theorem take (h : Contents s ls rs i) (hs : Shape s ls i j) (ha : a ∈ order ls)
    (hv : s.slotOf a = .claimed v) : Contents (s.setSlot a .vacant) ls rs i := by
  rw [← List.append_nil rs]
  refine h.setSlot hs ha (fun w hw => by simp at hw) (List.filterMap_congr fun b _ => ?_)
  rw [Shared.pair?, Shared.pair?, Shared.slotOf_setSlot (hs.isSome ha)]
  split
  · rename_i hb
    rw [hb, hv]
    rfl
  · rfl

theorem exchangeHead (h : Contents s ls rs i) (hs : Shape s ls i j) {q : Queue}
    (hq : s.queue.exchangeHead a b = some q) :
    Contents { s with queue := q } ls (rs ++ (s.pair? a).toList) (i + 1) := by
  unfold Queue.exchangeHead at hq
  split at hq
  · rename_i hhead
    refine ⟨h.content, ?_⟩
    have hsplit := h.split
    rw [hs.drop_eq hhead, List.filterMap_cons] at hsplit
    change ls = rs ++ (s.pair? a).toList ++ ((order ls).drop (i + 1)).filterMap s.pair?
    rw [List.append_assoc]
    cases hp : s.pair? a with
    | none => rwa [hp] at hsplit
    | some x => rwa [hp] at hsplit
  · cases hq

end Contents
end Interleaved
end Reclaim
