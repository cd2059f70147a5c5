import Mathlib.Data.List.Nodup
import Mathlib.Logic.Function.Basic
import Reclaim.Proofs.Interleaved.QueueShape

set_option autoImplicit false

namespace Reclaim.Interleaved
variable {V : Type} {s s' : Shared V} {h h' : List (QueueEvent V)} {fresh a b : Address} {v : V}
  {t u : ThreadId} {due : ThreadId → Option Address} {i j : Nat}

def Operation.offered : Operation → Option Address
  | .enqueue node .readTail => some node
  | .enqueue node (.confirmTail _) => some node
  | .enqueue node (.link _) => some node
  | .enqueue node (.advance _ _ false) => some node
  | _ => none

theorem offersBy_congr (hoff : offers h' = offers h) : offersBy t h' = offersBy t h :=
  congrArg (ofThread t) hoff

theorem offeredBy_congr (hoff : offers h' = offers h) (l : List (Address × V)) :
    offeredBy t h' l = offeredBy t h l := by
  rw [offeredBy, offeredBy, offersBy_congr hoff]

structure Offered (s : Shared V) (h : List (QueueEvent V)) (t : ThreadId) (a : Address) (v : V) :
    Prop where
  cell : s.nodes.get? a = some { slot := .full v }
  new : a ∉ order (links h)
  last : offersBy t h = offeredBy t h (links h) ++ [(a, v)]

namespace Offered

theorem slotOf_eq (h : Offered s h' t a v) : s.slotOf a = .full v := by
  rw [Shared.slotOf, h.cell]
  rfl

theorem nextOf_eq (h : Offered s h' t a v) : s.nextOf a = none := by
  rw [Shared.nextOf, h.cell]
  rfl

theorem mem_offers (h : Offered s h' t a v) : (t, a, v) ∈ offers h' := by
  rw [← mem_offersBy, h.last]
  simp

end Offered

structure Offers (s : Shared V) (h : List (QueueEvent V)) (fresh : Address)
    (due : ThreadId → Option Address) : Prop where
  distinct : ((offers h).map (·.2.1)).Nodup
  old : ∀ x ∈ offers h, x.2.1 < fresh
  cells : ∀ a, (s.nodes.get? a).isSome = true → a < fresh
  linked : ∀ x ∈ links h, ∃ t, (t, x) ∈ offers h
  pending : ∀ t a, due t = some a → ∃ v, Offered s h t a v
  settled : ∀ t, due t = none → offersBy t h = offeredBy t h (links h)

namespace Offers

theorem unique (o : Offers s h fresh due) {x y : ThreadId × Address × V} (hx : x ∈ offers h)
    (hy : y ∈ offers h) (heq : x.2.1 = y.2.1) : x = y :=
  List.inj_on_of_nodup_map o.distinct hx hy heq

theorem get?_fresh (o : Offers s h fresh due) : s.nodes.get? fresh = none := by
  cases hn : s.nodes.get? fresh with
  | none => rfl
  | some n => exact absurd (o.cells fresh (by rw [hn]; rfl)) (Nat.lt_irrefl fresh)

/-- Nothing changes for what was offered while nothing is offered or linked and only nodes of the
chain are written. -/
theorem keep (o : Offers s h fresh due) (hs : Shape s (links h) i j)
    (hoff : offers h' = offers h) (hlinks : links h' = links h)
    (hout : ∀ a, a ∉ order (links h) → s'.nodes.get? a = s.nodes.get? a) :
    Offers s' h' fresh due := by
  refine ⟨hoff ▸ o.distinct, hoff ▸ o.old, ?_, hoff ▸ hlinks ▸ o.linked,
    ?_, ?_⟩
  · intro a ha
    by_cases hmem : a ∈ order (links h)
    · exact o.cells a (hs.isSome hmem)
    · rw [hout a hmem] at ha
      exact o.cells a ha
  · intro t a ha
    obtain ⟨v, hv⟩ := o.pending t a ha
    refine ⟨v, (hout a hv.new).trans hv.cell, hlinks ▸ hv.new, ?_⟩
    rw [offersBy_congr hoff, offeredBy_congr hoff, hlinks]
    exact hv.last
  · intro t ht
    rw [offersBy_congr hoff, offeredBy_congr hoff, hlinks]
    exact o.settled t ht

theorem offer (o : Offers s h fresh due) (hs : Shape s (links h) i j) (ht : due t = none)
    (v : V) :
    Offers { s with nodes := s.nodes.insert fresh { slot := .full v } }
      (.begun t (some (fresh, v)) :: h) (fresh + 1) (Function.update due t (some fresh)) := by
  have hoff : offers (.begun t (some (fresh, v)) :: h) = offers h ++ [(t, fresh, v)] :=
    told_cons ..
  have hlinks : links (.begun t (some (fresh, v)) :: h) = links h :=
    told_cons_of_none rfl
  have hnew : ∀ x ∈ links h, x.1 ≠ fresh := by
    intro x hx
    obtain ⟨u, hu⟩ := o.linked x hx
    exact Nat.ne_of_lt (o.old _ hu)
  have horder : fresh ∉ order (links h) := by
    intro hmem
    have hcell := hs.isSome hmem
    rw [o.get?_fresh] at hcell
    cases hcell
  have hself : offersBy t (.begun t (some (fresh, v)) :: h) = offersBy t h ++ [(fresh, v)] := by
    rw [offersBy, hoff, ofThread_append, ofThread_self, ← offersBy]
  have hother {u : ThreadId} (hu : u ≠ t) :
      offersBy u (.begun t (some (fresh, v)) :: h) = offersBy u h := by
    rw [offersBy, hoff, ofThread_append, ofThread_of_ne hu.symm, List.append_nil, ← offersBy]
  have hby {u : ThreadId} :
      offeredBy u (.begun t (some (fresh, v)) :: h) (links h) = offeredBy u h (links h) := by
    by_cases hu : u = t
    · subst hu
      apply List.filter_congr
      intro x hx
      simp [hself, hnew x hx]
    · rw [offeredBy, offeredBy, hother hu]
  refine ⟨?_, ?_, ?_, ?_, ?_, ?_⟩
  · rw [hoff, List.map_append, List.nodup_append]
    refine ⟨o.distinct, List.nodup_singleton _, fun a ha b hb => ?_⟩
    obtain ⟨x, hx, rfl⟩ := List.mem_map.1 ha
    rw [List.map_singleton, List.mem_singleton] at hb
    exact hb ▸ Nat.ne_of_lt (o.old x hx)
  · intro x hx
    rw [hoff, List.mem_append, List.mem_singleton] at hx
    rcases hx with hx | rfl
    · exact Nat.lt_succ_of_lt (o.old x hx)
    · exact Nat.lt_succ_self fresh
  · intro a ha
    rw [Table.get?_insert] at ha
    split at ha
    · rename_i heq
      exact heq ▸ Nat.lt_succ_self fresh
    · exact Nat.lt_succ_of_lt (o.cells a ha)
  · intro x hx
    rw [hlinks] at hx
    obtain ⟨u, hu⟩ := o.linked x hx
    exact ⟨u, hoff ▸ List.mem_append_left _ hu⟩
  · intro u a ha
    by_cases hu : u = t
    · subst hu
      rw [Function.update_self] at ha
      obtain rfl := Option.some.inj ha
      refine ⟨v, Table.get?_insert_self .., hlinks ▸ horder, ?_⟩
      rw [hself, hlinks, hby, o.settled u ht]
    · rw [Function.update_of_ne hu] at ha
      obtain ⟨w, hw⟩ := o.pending u a ha
      refine ⟨w, ?_, hlinks ▸ hw.new, ?_⟩
      · rw [Table.get?_insert_of_ne (Nat.ne_of_lt (o.old _ hw.mem_offers)), hw.cell]
      · rw [hother hu, hlinks, hby, hw.last]
  · intro u hu
    have hut : u ≠ t := by
      rintro rfl
      rw [Function.update_self] at hu
      cases hu
    rw [Function.update_of_ne hut] at hu
    rw [hother hut, hlinks, hby, o.settled u hu]

theorem link (o : Offers s h fresh due) (ha : Offered s h t a v)
    (hb : b ∈ order (links h)) :
    Offers (s.setNext b a) (.linked a v :: h) fresh (Function.update due t none) := by
  have hoff : offers (.linked a v :: h) = offers h := told_cons_of_none rfl
  have hlinks : links (.linked a v :: h) = links h ++ [(a, v)] := told_cons ..
  have hmem : a ∈ (offersBy t h).map (·.1) := List.mem_map.2 ⟨_, mem_offersBy.2 ha.mem_offers, rfl⟩
  have hself : offeredBy t h (links h ++ [(a, v)]) = offeredBy t h (links h) ++ [(a, v)] := by
    rw [offeredBy, List.filter_append, List.filter_singleton, decide_eq_true hmem]
    rfl
  have hother {u : ThreadId} (hu : u ≠ t) :
      offeredBy u h (links h ++ [(a, v)]) = offeredBy u h (links h) := by
    have hnot : a ∉ (offersBy u h).map (·.1) := by
      intro hmem'
      obtain ⟨x, hx, hxa⟩ := List.mem_map.1 hmem'
      exact hu (congrArg (·.1) (o.unique (mem_offersBy.1 hx) ha.mem_offers hxa))
    rw [offeredBy, List.filter_append, List.filter_singleton, decide_eq_false hnot]
    exact List.append_nil _
  refine ⟨hoff ▸ o.distinct, hoff ▸ o.old, ?_, ?_, ?_, ?_⟩
  · intro c hc
    rw [Shared.isSome_setNext] at hc
    exact o.cells c hc
  · intro x hx
    rw [hlinks, List.mem_append, List.mem_singleton] at hx
    rw [hoff]
    rcases hx with hx | rfl
    · exact o.linked x hx
    · exact ⟨t, ha.mem_offers⟩
  · intro u c hc
    have hut : u ≠ t := by
      rintro rfl
      rw [Function.update_self] at hc
      cases hc
    rw [Function.update_of_ne hut] at hc
    obtain ⟨w, hw⟩ := o.pending u c hc
    have hca : c ≠ a := fun hca =>
      hut (congrArg (·.1) (o.unique hw.mem_offers ha.mem_offers hca))
    refine ⟨w, ?_, ?_, ?_⟩
    · rw [Shared.setNext, Table.get?_modify, if_neg (ne_of_mem_of_not_mem hb hw.new).symm, hw.cell]
    · rw [hlinks, order_append, List.mem_append, List.mem_singleton]
      exact not_or.2 ⟨hw.new, hca⟩
    · rw [offersBy_congr hoff, offeredBy_congr hoff, hlinks, hother hut]
      exact hw.last
  · intro u hu
    rw [offersBy_congr hoff, offeredBy_congr hoff, hlinks]
    by_cases hut : u = t
    · rw [hut, hself]
      exact ha.last
    · rw [Function.update_of_ne hut] at hu
      rw [hother hut]
      exact o.settled u hu

end Offers
end Reclaim.Interleaved
