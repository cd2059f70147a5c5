import Mathlib.Data.List.Nodup
import Mathlib.Logic.Function.Basic
import Reclaim.Proofs.Interleaved.QueueShape

set_option autoImplicit false

namespace Reclaim.Interleaved
variable {V : Type} {s s' : Shared V} {h h' es : List (QueueEvent V)} {a : Address} {v : V}
  {t : ThreadId} {mine loose : ThreadId → Option Address} {busy busy' : ThreadId → Prop} {i j : Nat}
  {ls : List (Address × V)}

def Operation.claims : Operation → Option Address
  | .dequeue (.count a) => some a
  | .dequeue (.take a) => some a
  | _ => none

def Operation.unlinks : Operation → Option Address
  | .dequeue (.test a false) => some a
  | .dequeue (.claim a false) => some a
  | _ => none

structure Claims (s : Shared V) (h : List (QueueEvent V)) (mine : ThreadId → Option Address) :
    Prop where
  claimed : ∀ a v, s.slotOf a = .claimed v → ∃ t, mine t = some a
  only : ∀ t u a, mine t = some a → mine u = some a → t = u
  held : ∀ t a, mine t = some a → a ∈ order (links h) ∧
    ∃ v, s.slotOf a = .claimed v ∧ (a, v) ∈ removals (during t h)
  taken : ∀ x ∈ links h, s.slotOf x.1 = .vacant → ∃ t, (t, x) ∈ receipts h
  received : ∀ x ∈ receipts h, x.2 ∈ links h ∧ s.slotOf x.2.1 = .vacant
  once : ((receipts h).map (·.2.1)).Nodup

namespace Claims

/-- Nothing changes for what was claimed while nothing is claimed or returned. -/
theorem keep (c : Claims s h mine) (hrec : receipts h' = receipts h)
    (hlinks : ∀ x ∈ links h, x ∈ links h')
    (hnew : ∀ x ∈ links h', x ∈ links h ∨ s'.slotOf x.1 ≠ .vacant)
    (hsame : ∀ a ∈ order (links h), s'.slotOf a = s.slotOf a)
    (hold : ∀ a v, s'.slotOf a = .claimed v → s.slotOf a = .claimed v)
    (hduring : ∀ t a, mine t = some a → ∀ x ∈ removals (during t h), x ∈ removals (during t h')) :
    Claims s' h' mine := by
  have horder {a : Address} (ha : a ∈ order (links h)) : a ∈ order (links h') := by
    rcases List.mem_cons.1 ha with rfl | ha
    · exact List.mem_cons_self
    · obtain ⟨x, hx, rfl⟩ := List.mem_map.1 ha
      exact mem_order_of_mem_links (hlinks x hx)
  refine ⟨fun a v hv => c.claimed a v (hold a v hv), c.only, ?_, ?_, ?_, hrec ▸ c.once⟩
  · intro t a ha
    obtain ⟨hmem, v, hv, hremoved⟩ := c.held t a ha
    exact ⟨horder hmem, v, (hsame a hmem).trans hv, hduring t a ha _ hremoved⟩
  · intro x hx hv
    rw [hrec]
    rcases hnew x hx with hx | hx
    · exact c.taken x hx ((hsame _ (mem_order_of_mem_links hx)).symm.trans hv)
    · exact absurd hv hx
  · intro x hx
    rw [hrec] at hx
    obtain ⟨hmem, hv⟩ := c.received x hx
    exact ⟨hlinks _ hmem, (hsame _ (mem_order_of_mem_links hmem)).trans hv⟩

theorem claim (c : Claims s h mine) (hs : Shape s (links h) i j) (ha : a ∈ order (links h))
    (hv : s.slotOf a = .full v) (hrec : receipts h' = receipts h) (hlinks : links h' = links h)
    (ht : mine t = none) (hremoved : (a, v) ∈ removals (during t h'))
    (hduring : ∀ u, ∀ x ∈ removals (during u h), x ∈ removals (during u h')) :
    Claims (s.setSlot a (.claimed v)) h' (Function.update mine t (some a)) := by
  have hslot := s.slotOf_setSlot (hs.isSome ha) (.claimed v)
  have hfree {u : ThreadId} : mine u ≠ some a := by
    intro hu
    obtain ⟨-, w, hw, -⟩ := c.held u a hu
    rw [hv] at hw
    cases hw
  refine ⟨?_, ?_, ?_, ?_, ?_, hrec ▸ c.once⟩
  · intro b w hw
    rw [hslot] at hw
    split at hw
    · rename_i hb
      exact ⟨t, by rw [hb, Function.update_self]⟩
    · obtain ⟨u, hu⟩ := c.claimed b w hw
      have hut : u ≠ t := by
        rintro rfl
        rw [ht] at hu
        cases hu
      exact ⟨u, by rw [Function.update_of_ne hut, hu]⟩
  · intro u u' b hu hu'
    by_cases hut : u = t <;> by_cases hut' : u' = t
    · rw [hut, hut']
    · rw [hut, Function.update_self] at hu
      rw [Function.update_of_ne hut', ← Option.some.inj hu] at hu'
      exact absurd hu' hfree
    · rw [hut', Function.update_self] at hu'
      rw [Function.update_of_ne hut, ← Option.some.inj hu'] at hu
      exact absurd hu hfree
    · rw [Function.update_of_ne hut] at hu
      rw [Function.update_of_ne hut'] at hu'
      exact c.only u u' b hu hu'
  · intro u b hu
    rw [hlinks, hslot]
    by_cases hut : u = t
    · rw [hut, Function.update_self] at hu
      obtain rfl := Option.some.inj hu
      exact ⟨ha, v, if_pos rfl, hut ▸ hremoved⟩
    · rw [Function.update_of_ne hut] at hu
      obtain ⟨hmem, w, hw, hrem⟩ := c.held u b hu
      have hba : b ≠ a := by
        rintro rfl
        exact hfree hu
      exact ⟨hmem, w, by rw [if_neg hba, hw], hduring u _ hrem⟩
  · intro x hx hx'
    rw [hlinks] at hx
    rw [hslot] at hx'
    rw [hrec]
    split at hx'
    · cases hx'
    · exact c.taken x hx hx'
  · intro x hx
    rw [hrec] at hx
    obtain ⟨hmem, hx'⟩ := c.received x hx
    rw [hlinks, hslot]
    refine ⟨hmem, ?_⟩
    split
    · rename_i hxa
      rw [hxa, hv] at hx'
      cases hx'
    · exact hx'

theorem take (c : Claims s h mine) (hs : Shape s (links h) i j) (ht : mine t = some a)
    (hmem : (a, v) ∈ links h) (hv : s.slotOf a = .claimed v) :
    Claims (s.setSlot a .vacant) (.returned t (some (a, v)) :: h)
      (Function.update mine t none) := by
  have ha : a ∈ order (links h) := mem_order_of_mem_links hmem
  have hslot := s.slotOf_setSlot (hs.isSome ha) .vacant
  have hlinks : links (.returned t (some (a, v)) :: h) = links h :=
    told_cons_of_none rfl
  have hrec : receipts (.returned t (some (a, v)) :: h) = receipts h ++ [(t, a, v)] :=
    told_cons ..
  have hother {u : ThreadId} {b : Address} (hu : Function.update mine t none u = some b) :
      u ≠ t ∧ mine u = some b := by
    by_cases hut : u = t
    · rw [hut, Function.update_self] at hu
      cases hu
    · rw [Function.update_of_ne hut] at hu
      exact ⟨hut, hu⟩
  have hlink : ∀ x ∈ links h, x.1 = a → x = (a, v) := fun x hx hxa =>
    List.inj_on_of_nodup_map (List.nodup_cons.1 hs.nodup).2 hx hmem hxa
  refine ⟨?_, ?_, ?_, ?_, ?_, ?_⟩
  · intro b w hw
    rw [hslot] at hw
    split at hw
    · cases hw
    · rename_i hb
      obtain ⟨u, hu⟩ := c.claimed b w hw
      have hut : u ≠ t := by
        rintro rfl
        exact hb (Option.some.inj (hu.symm.trans ht))
      exact ⟨u, by rw [Function.update_of_ne hut, hu]⟩
  · intro u u' b hu hu'
    exact c.only u u' b (hother hu).2 (hother hu').2
  · intro u b hu
    obtain ⟨hut, hu⟩ := hother hu
    obtain ⟨hb, w, hw, hrem⟩ := c.held u b hu
    have hba : b ≠ a := by
      rintro rfl
      exact hut (c.only u t b hu ht)
    rw [hlinks, hslot, if_neg hba, ← List.singleton_append]
    exact ⟨hb, w, hw, mem_removals_during (by simp [QueueEvent.begins]) hrem⟩
  · intro x hx hx'
    rw [hlinks] at hx
    rw [hslot] at hx'
    rw [hrec]
    split at hx'
    · rename_i hxa
      exact ⟨t, by rw [hlink x hx hxa]; exact List.mem_append_right _ (List.mem_singleton_self _)⟩
    · obtain ⟨u, hu⟩ := c.taken x hx hx'
      exact ⟨u, List.mem_append_left _ hu⟩
  · intro x hx
    rw [hrec, List.mem_append, List.mem_singleton] at hx
    rw [hlinks, hslot]
    rcases hx with hx | rfl
    · obtain ⟨hx, hx'⟩ := c.received x hx
      exact ⟨hx, by rw [hx']; exact ite_self _⟩
    · exact ⟨hmem, if_pos rfl⟩
  · rw [hrec, List.map_append, List.nodup_append]
    refine ⟨c.once, List.nodup_singleton _, fun b hb b' hb' => ?_⟩
    obtain ⟨x, hx, rfl⟩ := List.mem_map.1 hb
    rw [List.map_singleton, List.mem_singleton] at hb'
    rintro rfl
    have hx' := (c.received x hx).2
    rw [hb', hv] at hx'
    cases hx'

end Claims

/-- Every thread receives values in the order in which they were removed, and each of them in an
operation that was under way when it was removed. -/
structure Returns (h : List (QueueEvent V)) (busy : ThreadId → Prop) : Prop where
  ordered : ∀ t, (receiptsBy t h).Sublist (removals h)
  earlier : ∀ t, busy t → (receiptsBy t h).Sublist (removals (before t h))
  overlap : ∀ t x l, QueueEvent.returned t (some x) :: l <:+ h → x ∈ removals (during t l)

theorem suffix_of_inner {e : QueueEvent V} {l : List (QueueEvent V)} (hes : ∀ e ∈ es, e.isInner)
    (he : e.receipt? ≠ none) (hl : e :: l <:+ es ++ h) : e :: l <:+ h := by
  induction es with
  | nil => exact hl
  | cons e' es ih =>
    rw [List.cons_append, List.suffix_cons_iff] at hl
    rcases hl with heq | hl
    · rw [(List.cons.inj heq).1] at he
      exact absurd (hes e' List.mem_cons_self).2.1 he
    · exact ih (fun e he => hes e (List.mem_cons_of_mem _ he)) hl

namespace Returns

theorem keep (r : Returns h busy) (hes : ∀ e ∈ es, e.isInner) (hbusy : ∀ t, busy' t → busy t) :
    Returns (es ++ h) busy' := by
  have hrec {t : ThreadId} : receiptsBy t (es ++ h) = receiptsBy t h :=
    congrArg (ofThread t) (receipts_append_of_inner hes)
  refine ⟨?_, ?_, ?_⟩
  · intro t
    rw [hrec, removals, told_append]
    exact (r.ordered t).trans (List.sublist_append_left ..)
  · intro t ht
    rw [hrec, before_append fun e he => (hes e he).2.2 t]
    exact r.earlier t (hbusy t ht)
  · intro t x l hl
    exact r.overlap t x l (suffix_of_inner hes (by simp [QueueEvent.receipt?]) hl)

theorem begin (r : Returns h busy) (o : Option (Address × V))
    (hbusy : ∀ u, u ≠ t → busy' u → busy u) : Returns (.begun t o :: h) busy' := by
  have hrec {u : ThreadId} : receiptsBy u (.begun t o :: h) = receiptsBy u h :=
    congrArg (ofThread u) (told_cons_of_none rfl)
  have hrem : removals (.begun t o :: h) = removals h := told_cons_of_none rfl
  refine ⟨?_, ?_, ?_⟩
  · intro u
    rw [hrec, hrem]
    exact r.ordered u
  · intro u hu
    rw [hrec]
    by_cases hut : u = t
    · rw [hut, before_begun, hrem]
      exact r.ordered t
    · rw [← List.singleton_append, before_append (by simp [QueueEvent.begins, Ne.symm hut])]
      exact r.earlier u (hbusy u hut hu)
  · intro u x l hl
    rcases List.suffix_cons_iff.1 hl with heq | hl
    · cases heq
    · exact r.overlap u x l hl

theorem take (r : Returns h busy) {x : Address × V} (ht : busy t)
    (hx : x ∈ removals (during t h)) (hbusy : ∀ u, busy' u → u ≠ t ∧ busy u) :
    Returns (.returned t (some x) :: h) busy' := by
  have hrec : receipts (.returned t (some x) :: h) = receipts h ++ [(t, x)] := told_cons ..
  have hother {u : ThreadId} (hu : u ≠ t) :
      receiptsBy u (.returned t (some x) :: h) = receiptsBy u h := by
    rw [receiptsBy, hrec, ofThread_append, ofThread_of_ne hu.symm, List.append_nil, ← receiptsBy]
  have hrem : removals (.returned t (some x) :: h) = removals h :=
    told_cons_of_none rfl
  refine ⟨?_, ?_, ?_⟩
  · intro u
    rw [hrem]
    by_cases hut : u = t
    · rw [hut, receiptsBy, hrec, ofThread_append, ofThread_self, ← receiptsBy, removals_eq t]
      exact (r.earlier t ht).append (List.singleton_sublist.2 hx)
    · rw [hother hut]
      exact r.ordered u
  · intro u hu
    obtain ⟨hut, hu⟩ := hbusy u hu
    rw [hother hut, ← List.singleton_append, before_append (by simp [QueueEvent.begins])]
    exact r.earlier u hu
  · intro u y l hl
    rcases List.suffix_cons_iff.1 hl with heq | hl
    · obtain ⟨hself, rfl⟩ := List.cons.inj heq
      obtain ⟨rfl, hy⟩ := QueueEvent.returned.inj hself
      exact Option.some.inj hy ▸ hx
    · exact r.overlap u y l hl

end Returns
end Reclaim.Interleaved
