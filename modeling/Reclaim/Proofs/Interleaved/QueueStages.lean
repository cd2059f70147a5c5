import Reclaim.Proofs.Interleaved.QueueClaims
import Reclaim.Proofs.Interleaved.QueueOffers

/-!
What an operation may rely on between two of its accesses. Whatever other threads do in the
meantime, head and tail move forward only, links stay and values are claimed once (`Grows`), and so
it still holds at the next access (`Fits.grow`).
-/

set_option autoImplicit false

namespace Reclaim.Interleaved
variable {V : Type} {s s' : Shared V} {h es : List (QueueEvent V)} {a b : Address} {v : V}
  {t : ThreadId} {i i' j j' : Nat} {o : Operation}

/-- A node that a removal found at the head. If it was unlinked with a value in it meanwhile, then
the value was removed while the removal was under way. -/
structure Seen (s : Shared V) (h : List (QueueEvent V)) (i : Nat) (t : ThreadId) (a : Address) :
    Prop where
  passed : a ∈ (order (links h)).take (i + 1)
  removed : ∀ v, s.slotOf a = .full v → a ∈ (order (links h)).take i →
    (a, v) ∈ removals (during t h)

def Fits (s : Shared V) (h : List (QueueEvent V)) (i j : Nat) (t : ThreadId) : Operation → Prop
  | .enqueue _ (.link b) => b ∈ order (links h)
  | .enqueue _ (.advance b next _) => s.nextOf b = some next
  | .dequeue (.readTail a) => Seen s h i t a
  | .dequeue (.test a alone) => Seen s h i t a ∧ (alone = false → a ∈ (order (links h)).take i)
  | .dequeue (.claim a alone) => Seen s h i t a ∧ (alone = false → a ∈ (order (links h)).take i)
  | .dequeue (.readNext a true) => a ∈ (order (links h)).take (i + 1) ∧ ∀ v, s.slotOf a ≠ .full v
  | .dequeue (.readNext a false) => a ∈ (order (links h)).take j
  | .dequeue (.advance a next) => s.nextOf a = some next
  | .dequeue (.unlink a next) => a ∈ (order (links h)).take j ∧ s.nextOf a = some next
  | _ => True

structure Grows (s s' : Shared V) (h es : List (QueueEvent V)) (i i' j j' : Nat) : Prop where
  front : i ≤ i'
  back : j ≤ j'
  next : ∀ a b, s.nextOf a = some b → s'.nextOf a = some b
  full : ∀ a ∈ order (links h), ∀ v, s'.slotOf a = .full v → s.slotOf a = .full v ∧
    (a ∈ (order (links (es ++ h))).take i' → a ∈ (order (links h)).take i ∨ (a, v) ∈ removals es)

theorem mem_take_order {k k' : Nat} (hk : k ≤ k') (ha : a ∈ (order (links h)).take k) :
    a ∈ (order (links (es ++ h))).take k' := by
  obtain ⟨m, hm, hma⟩ := mem_take.1 ha
  obtain ⟨hlt, -⟩ := List.getElem?_eq_some_iff.1 hma
  refine mem_take.2 ⟨m, Nat.lt_of_lt_of_le hm hk, ?_⟩
  rw [links_append, order, List.map_append, ← List.cons_append, ← order,
    List.getElem?_append_left hlt, hma]

theorem mem_order_append (ha : a ∈ order (links h)) : a ∈ order (links (es ++ h)) := by
  rw [links_append, order, List.map_append, ← List.cons_append, ← order]
  exact List.mem_append_left _ ha

theorem Shape.seen_head (hs : Shape s (links h) i j) (hhead : s.queue.head = some a) :
    Seen s h i t a := by
  have hi := hs.head.symm.trans hhead
  refine ⟨mem_take.2 ⟨i, Nat.lt_succ_self i, hi⟩, fun v _ ha => ?_⟩
  obtain ⟨k, hk, hka⟩ := mem_take.1 ha
  exact absurd (hs.place_unique hka hi) (Nat.ne_of_lt hk)

theorem Seen.mem (hseen : Seen s h i t a) : a ∈ order (links h) := List.mem_of_mem_take hseen.passed

theorem Seen.grow (g : Grows s s' h es i i' j j') (hes : ∀ e ∈ es, ¬ e.begins t)
    (hseen : Seen s h i t a) : Seen s' (es ++ h) i' t a := by
  refine ⟨mem_take_order (Nat.succ_le_succ g.front) hseen.passed, fun v hv ha => ?_⟩
  obtain ⟨hold, hgone⟩ := g.full a hseen.mem v hv
  rcases hgone ha with ha | ha
  · exact mem_removals_during hes (hseen.removed v hold ha)
  · exact mem_removals_during_new hes ha

theorem Fits.grow (g : Grows s s' h es i i' j j') (hes : ∀ e ∈ es, ¬ e.begins t)
    (hfits : Fits s h i j t o) : Fits s' (es ++ h) i' j' t o := by
  cases o with
  | enqueue node next =>
    cases next with
    | link b => exact mem_order_append hfits
    | advance b next linked => exact g.next _ _ hfits
    | _ => trivial
  | dequeue next =>
    cases next with
    | readTail a => exact Seen.grow g hes hfits
    | test a alone => exact ⟨hfits.1.grow g hes, fun hf => mem_take_order g.front (hfits.2 hf)⟩
    | claim a alone => exact ⟨hfits.1.grow g hes, fun hf => mem_take_order g.front (hfits.2 hf)⟩
    | readNext a alone =>
      cases alone with
      | false => exact mem_take_order g.back hfits
      | true =>
        refine ⟨mem_take_order (Nat.succ_le_succ g.front) hfits.1, fun v hv => ?_⟩
        exact hfits.2 v (g.full a (List.mem_of_mem_take hfits.1) v hv).1
    | advance a next => exact g.next _ _ hfits
    | unlink a next => exact ⟨mem_take_order g.back hfits.1, g.next _ _ hfits.2⟩
    | _ => trivial

namespace Grows

theorem still (hnodes : s'.nodes = s.nodes) (hlinks : links es = []) (hj : j ≤ j') :
    Grows s s' h es i i j j' := by
  refine ⟨Nat.le_refl i, hj, ?_, fun a _ v hv => ⟨?_, ?_⟩⟩
  · intro a b hb
    rwa [Shared.nextOf, hnodes]
  · rwa [Shared.slotOf, hnodes] at hv
  · intro ha
    rw [links_append_of_nil hlinks] at ha
    exact .inl ha

theorem insert (hs : Shape s (links h) i j) (ha : s.nodes.get? a = none) (n : Node V)
    (hlinks : links es = []) :
    Grows s { s with nodes := s.nodes.insert a n } h es i i j j := by
  have hget {b : Address} (hb : (s.nodes.get? b).isSome = true) :
      (s.nodes.insert a n).get? b = s.nodes.get? b := by
    apply Table.get?_insert_of_ne
    rintro rfl
    rw [ha] at hb
    cases hb
  refine ⟨Nat.le_refl i, Nat.le_refl j, ?_, fun b hb v hv => ⟨?_, ?_⟩⟩
  · intro b c hc
    obtain ⟨n, hn, -⟩ := Option.bind_eq_some_iff.1 hc
    rw [Shared.nextOf, hget (by rw [hn]; rfl)]
    exact hc
  · rwa [Shared.slotOf, hget (hs.isSome hb)] at hv
  · intro hb'
    rw [links_append_of_nil hlinks] at hb'
    exact .inl hb'

theorem setSlot (hs : Shape s (links h) i j) (ha : a ∈ order (links h)) {slot : Slot V}
    (hslot : slot.value? = none) (hlinks : links es = []) :
    Grows s (s.setSlot a slot) h es i i j j := by
  refine ⟨Nat.le_refl i, Nat.le_refl j, ?_, fun b hb v hv => ⟨?_, ?_⟩⟩
  · intro b c hc
    rwa [Shared.nextOf_setSlot]
  · rw [Shared.slotOf_setSlot (hs.isSome ha)] at hv
    split at hv
    · rw [hv] at hslot
      cases hslot
    · exact hv
  · intro hb'
    rw [links_append_of_nil hlinks] at hb'
    exact .inl hb'

theorem link (hs : Shape s (links h) i j) (hb : b ∈ order (links h)) (hnext : s.nextOf b = none)
    (v : V) : Grows s (s.setNext b a) h [.linked a v] i i j j := by
  have hlinks : links ([.linked a v] ++ h) = links h ++ [(a, v)] := told_append ..
  refine ⟨Nat.le_refl i, Nat.le_refl j, ?_, fun c _ w hw => ⟨?_, ?_⟩⟩
  · intro c d hd
    rw [Shared.nextOf_setNext (hs.isSome hb), if_neg, hd]
    rintro rfl
    rw [hnext] at hd
    cases hd
  · rwa [Shared.slotOf_setNext] at hw
  · intro hc
    rw [hlinks, order_append, List.take_append_of_le_length (Nat.le_of_lt hs.front_lt)] at hc
    exact .inl hc

/-- When the head moves, the value that was left in it is removed. -/
theorem exchangeHead (hs : Shape s (links h) i j) (hhead : s.queue.head = some a) {q : Queue}
    (hlinks : links es = []) (hgone : ∀ v, s.slotOf a = .full v → (a, v) ∈ removals es) :
    Grows s { s with queue := q } h es i (i + 1) j j := by
  refine ⟨Nat.le_succ i, Nat.le_refl j, fun b c hc => hc, fun b _ v hv => ⟨hv, fun hb => ?_⟩⟩
  rw [links_append_of_nil hlinks, hs.mem_take_succ] at hb
  rcases hb with hb | hb
  · exact .inl hb
  · obtain rfl := Option.some.inj (hb.symm.trans hhead)
    exact .inr (hgone v hv)

end Grows
end Reclaim.Interleaved
