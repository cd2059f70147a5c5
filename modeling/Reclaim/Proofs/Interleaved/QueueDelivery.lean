import Mathlib.Data.List.Perm.Basic
import Reclaim.Proofs.Interleaved.QueueAccesses

set_option autoImplicit false

namespace Reclaim

theorem Nodes.get?_of_mem_chainFrom {V : Type} {nodes : Nodes V} {fuel : Nat}
    {start : Option Address} {c : List (Address × Node V)}
    (h : nodes.chainFrom fuel start = some c) : ∀ e ∈ c, nodes.get? e.1 = some e.2 := by
  induction fuel generalizing start c with
  | zero =>
    cases start with
    | none =>
      obtain rfl := Option.some.inj h
      simp
    | some a => cases h
  | succ fuel ih =>
    cases start with
    | none =>
      obtain rfl := Option.some.inj h
      simp
    | some a =>
      obtain ⟨n, hn, h⟩ := Option.bind_eq_some_iff.1 h
      obtain ⟨rest, hrest, h⟩ := Option.bind_eq_some_iff.1 h
      obtain rfl := Option.some.inj h
      intro e he
      rcases List.mem_cons.1 he with rfl | he
      · exact hn
      · exact ih hrest e he

namespace Interleaved
variable {V : Type} {s : Shared V} {h : List (QueueEvent V)} {fresh a : Address} {t p : ThreadId}
  {i j : Nat} {ops : ThreadId → Option Operation}

def valuesIn (c : List (Address × Node V)) : List (Address × V) :=
  c.filterMap fun e => e.2.slot.value?.map fun v => (e.1, v)

theorem Shape.chain_eq {ls : List (Address × V)} (hs : Shape s ls i j) :
    ∃ c, s.queue.chain s.nodes = some c ∧ valuesIn c = ((order ls).drop i).filterMap s.pair? := by
  have hpath := hs.path.drop i
  rw [← hs.head] at hpath
  obtain ⟨c, hc, hl, -⟩ := hpath.chainFrom hpath.length_le_size
  refine ⟨c, hc, ?_⟩
  rw [← hl, List.filterMap_map, valuesIn]
  apply List.filterMap_congr
  intro e he
  rw [Function.comp_apply, Shared.pair?, Shared.slotOf, Nodes.get?_of_mem_chainFrom hc e he]
  rfl

namespace Inv

theorem nodup_links (I : Inv s h ops fresh i j) : ((links h).map (·.1)).Nodup :=
  (List.nodup_cons.1 I.shape.nodup).2

theorem offeredBy_links (I : Inv s h ops fresh i j) (p : ThreadId) :
    (offeredBy p h (links h)).Sublist (offersBy p h) := by
  cases hp : (ops p).bind Operation.offered with
  | none => rw [I.offered.settled p hp]
  | some a =>
    obtain ⟨v, hv⟩ := I.offered.pending p a hp
    rw [hv.last]
    exact List.sublist_append_left ..

theorem offeredBy_receiptsBy (I : Inv s h ops fresh i j) (t p : ThreadId) :
    (offeredBy p h (receiptsBy t h)).Sublist (offersBy p h) := by
  have hremovals : (removals h).Sublist (links h) := by
    rw [I.contents.split]
    exact List.sublist_append_left ..
  exact (((I.returns.ordered t).trans hremovals).filter _).trans (I.offeredBy_links p)

theorem perm_links (I : Inv s h ops fresh i j) (hidle : ∀ t, ops t = none) :
    ((offers h).map (·.2)).Perm (links h) := by
  have hnodup : ((offers h).map (·.2)).Nodup :=
    List.Nodup.of_map (·.1) (by rw [List.map_map]; exact I.offered.distinct)
  refine (List.perm_ext_iff_of_nodup hnodup I.nodup_links.of_map).2 fun x => ⟨?_, ?_⟩
  · intro hx
    obtain ⟨⟨t, y⟩, hy, rfl⟩ := List.mem_map.1 hx
    have hby := mem_offersBy.2 hy
    rw [I.offered.settled t (by rw [hidle]; rfl)] at hby
    exact List.mem_of_mem_filter hby
  · intro hx
    obtain ⟨t, ht⟩ := I.offered.linked x hx
    exact List.mem_map.2 ⟨_, ht, rfl⟩

/-- Once no operation is under way, all that was removed was received. -/
theorem perm_receipts (I : Inv s h ops fresh i j) (hidle : ∀ t, ops t = none) :
    (removals h).Perm ((receipts h).map (·.2)) := by
  have hsplit := I.contents.split
  have hlinks : (removals h ++ ((order (links h)).drop i).filterMap s.pair?).Nodup := by
    rw [← hsplit]
    exact I.nodup_links.of_map
  have hnodup : ((receipts h).map (·.2)).Nodup :=
    List.Nodup.of_map (·.1) (by rw [List.map_map]; exact I.claims.once)
  obtain ⟨hremovals, -, hapart⟩ := List.nodup_append.1 hlinks
  refine (List.perm_ext_iff_of_nodup hremovals hnodup).2 fun x => ⟨?_, ?_⟩
  · intro hx
    have hlink : x ∈ links h := by
      rw [hsplit]
      exact List.mem_append_left _ hx
    cases hv : s.slotOf x.1 with
    | vacant =>
      obtain ⟨t, ht⟩ := I.claims.taken x hlink hv
      exact List.mem_map.2 ⟨_, ht, rfl⟩
    | claimed v =>
      obtain ⟨t, ht⟩ := I.claims.claimed x.1 v hv
      rw [hidle] at ht
      cases ht
    | full v =>
      have hmem := mem_order_of_mem_links hlink
      rw [← List.take_append_drop i (order (links h)), List.mem_append] at hmem
      rcases hmem with hmem | hmem
      -- The thread that unlinked a full node has not finished with it.
      · obtain ⟨t, ht⟩ := I.unlinked x.1 hmem v hv
        rw [hidle] at ht
        cases ht
      · have hself := I.contents.content x.1 (mem_order_of_mem_links hlink) v (.inl hv)
        have heq : x = (x.1, v) := List.inj_on_of_nodup_map I.nodup_links hlink hself rfl
        have hwaits := List.mem_filterMap.2 ⟨x.1, hmem, Shared.pair?_of_full hv⟩
        exact absurd heq (hapart x hx _ hwaits)
  · intro hx
    obtain ⟨y, hy, rfl⟩ := List.mem_map.1 hx
    obtain ⟨hlink, hv⟩ := I.claims.received y hy
    rw [hsplit, List.mem_append] at hlink
    apply hlink.resolve_right
    intro hwaits
    obtain ⟨b, -, hb⟩ := List.mem_filterMap.1 hwaits
    obtain ⟨hfull, rfl⟩ := Shared.pair?_eq_some.1 hb
    rw [hv] at hfull
    cases hfull

/-- With nothing behind a node that was seen at the head, and no value in it, the queue is empty. -/
theorem values_eq_nil (I : Inv s h ops fresh i j) (ha : a ∈ (order (links h)).take (i + 1))
    (hnot : ∀ v, s.slotOf a ≠ .full v) (hnext : s.nextOf a = none) :
    s.queue.values s.nodes = some [] := by
  obtain ⟨c, hc, hvalues⟩ := I.shape.chain_eq
  rw [I.shape.drop_of_last ha hnext, List.filterMap_cons, Shared.pair?_of_not_full hnot,
    List.filterMap_nil, valuesIn, List.filterMap_eq_nil_iff] at hvalues
  rw [Queue.values, hc, Option.map_some, List.filterMap_eq_nil_iff.2 fun e he => ?_]
  exact Option.map_eq_none_iff.1 (hvalues e he)

end Inv

def QueueEvent.returns : QueueEvent V → Bool
  | returned _ _ => true
  | _ => false

theorem Enqueuing.not_returned (next : Enqueuing) (x : Option (Address × V)) :
    (next.step s a).1 ≠ .returned x ∧ ∀ e ∈ (next.step s a).2.2, ¬ e.returns := by
  fun_cases Enqueuing.step s a next <;> simp [QueueEvent.returns]

theorem Dequeuing.not_returned (next : Dequeuing) :
    ∀ e ∈ (next.step s).2.2, ¬ e.returns := by
  fun_cases Dequeuing.step s next <;> simp [QueueEvent.returns]

theorem Dequeuing.returned_none {next : Dequeuing} (hnone : (next.step s).1 = .returned none) :
    (∃ a, next = .readNext a true ∧ s.nextOf a = none) ∨
      ∃ a, next = .take a ∧ (s.slotOf a).take.1 = none := by
  fun_cases Dequeuing.step s next <;> simp_all [Dequeuing.step]

namespace QueueState

theorem returned_none_of_settle {σ : Type} {wrap : σ → Operation} {s : QueueState V} {u : ThreadId}
    {r : Progress σ V × Shared V × List (QueueEvent V)} (hevents : ∀ e ∈ r.2.2, ¬ e.returns)
    (hnone : (s.settle u wrap r).history = .returned t none :: s.history) :
    u = t ∧ r.1 = .returned none := by
  obtain ⟨p, shared, events⟩ := r
  cases p with
  | next o =>
    have hself : events = [.returned t none] := List.append_cancel_right hnone
    have hmem := hevents (.returned t none) (by rw [hself]; exact List.mem_singleton_self _)
    exact absurd rfl hmem
  | returned x =>
    obtain ⟨hu, hx⟩ := QueueEvent.returned.inj (List.cons.inj hnone).1
    exact ⟨hu, congrArg _ hx⟩
  | inserted => cases (List.cons.inj hnone).1

theorem Valid.emptied {s : QueueState V} (hs : s.Valid) {m : QueueMove V}
    (hnone : (s.move m).history = .returned t none :: s.history) :
    (∃ d, s.pending.get? t = some (.dequeue d)) ∧
      s.shared.queue.values s.shared.nodes = some [] := by
  obtain ⟨i, j, I⟩ := hs
  cases m with
  | enqueue u v =>
    cases hu : s.pending.get? u with
    | some o =>
      rw [QueueState.move, hu] at hnone
      exact (List.cons_ne_self _ _ hnone.symm).elim
    | none =>
      rw [QueueState.move, hu] at hnone
      cases (List.cons.inj hnone).1
  | dequeue u =>
    cases hu : s.pending.get? u with
    | some o =>
      rw [QueueState.move, hu] at hnone
      exact (List.cons_ne_self _ _ hnone.symm).elim
    | none =>
      rw [QueueState.move, hu] at hnone
      cases (List.cons.inj hnone).1
  | step u =>
    cases hu : s.pending.get? u with
    | none =>
      rw [QueueState.move, hu] at hnone
      exact (List.cons_ne_self _ _ hnone.symm).elim
    | some o =>
      cases o with
      | enqueue node next =>
        rw [QueueState.move, hu] at hnone
        have hnot := next.not_returned (s := s.shared) (a := node) none
        exact absurd (returned_none_of_settle hnot.2 hnone).2 hnot.1
      | dequeue next =>
        rw [QueueState.move, hu] at hnone
        obtain ⟨rfl, hreturned⟩ := returned_none_of_settle next.not_returned hnone
        refine ⟨⟨next, hu⟩, ?_⟩
        have hfits := I.fits u _ hu
        -- Nothing is returned when no node follows; a claimed value is there to be taken.
        rcases Dequeuing.returned_none hreturned with ⟨a, rfl, hnext⟩ | ⟨a, rfl, htake⟩
        · exact I.values_eq_nil hfits.1 hfits.2 hnext
        · obtain ⟨-, v, hv, -⟩ := I.claims.held u a (by rw [hu]; rfl)
          rw [hv] at htake
          cases htake

/-- Values are removed in the order in which they were linked, and those that were linked and not
removed wait in the chain in this order. Every value is received once at most, in an operation that
was under way when it was removed, and every thread receives the values of every other in the order
in which they were offered. A removal finds nothing only where nothing waits, and once no operation
is under way, what was offered was received or waits. -/
theorem Reachable.delivered_in_order {s : QueueState V} (hs : s.Reachable) :
    (∃ c, s.shared.queue.chain s.shared.nodes = some c ∧
      links s.history = removals s.history ++ valuesIn c ∧
      ((∀ t, s.pending.get? t = none) →
        ((offers s.history).map (·.2)).Perm ((receipts s.history).map (·.2) ++ valuesIn c))) ∧
    ((offers s.history).map (·.2.1)).Nodup ∧
    ((links s.history).map (·.1)).Nodup ∧
    ((receipts s.history).map (·.2.1)).Nodup ∧
    (∀ t x l, QueueEvent.returned t (some x) :: l <:+ s.history → x ∈ removals (during t l)) ∧
    (∀ t p, (offeredBy p s.history (receiptsBy t s.history)).Sublist (offersBy p s.history)) ∧
    ∀ m t, (s.move m).history = .returned t none :: s.history →
      (∃ d, s.pending.get? t = some (.dequeue d)) ∧
        s.shared.queue.values s.shared.nodes = some [] := by
  obtain ⟨i, j, I⟩ := hs.valid
  obtain ⟨c, hc, hvalues⟩ := I.shape.chain_eq
  refine ⟨⟨c, hc, ?_, ?_⟩, I.offered.distinct, I.nodup_links, I.claims.once,
    I.returns.overlap, I.offeredBy_receiptsBy, fun m t => hs.valid.emptied⟩
  · rw [hvalues]
    exact I.contents.split
  · intro hidle
    have hreceived := (I.perm_receipts hidle).append_right (valuesIn c)
    rw [hvalues, ← I.contents.split, ← hvalues] at hreceived
    exact (I.perm_links hidle).trans hreceived

theorem Reachable.foldl {s : QueueState V} (hs : s.Reachable) (ms : List (QueueMove V)) :
    (ms.foldl QueueState.move s).Reachable := by
  induction ms generalizing s with
  | nil => exact hs
  | cons m ms ih => exact ih (.move m hs)

/-- Thread 1 found the first value alone and is about to claim it in place. Before it does so, a
second value is linked and thread 2 unlinks the node; thread 2 then finds the value claimed. -/
def contested : QueueState Nat :=
  let steps (n : Nat) (t : ThreadId) : List (QueueMove Nat) := List.replicate n (.step t)
  let moves := .enqueue 0 7 :: steps 5 0 ++ .dequeue 1 :: steps 10 1 ++ .enqueue 0 8 :: steps 5 0 ++
    .dequeue 2 :: steps 5 2 ++ steps 3 1 ++ steps 8 2
  moves.foldl QueueState.move initial

theorem contested_idle (t : ThreadId) : contested.pending.get? t = none := by
  have hkeys : contested.pending.keys = [] := by decide +kernel
  rw [← Option.not_isSome_iff_eq_none, ← Table.mem_keys, hkeys]
  exact List.not_mem_nil

theorem contested_delivered :
    contested.Reachable ∧ removals contested.history = [(2, 7), (3, 8)] ∧
      receipts contested.history = [(1, 2, 7), (2, 3, 8)] ∧
      ∃ c, contested.shared.queue.chain contested.shared.nodes = some c ∧
        links contested.history = removals contested.history ++ valuesIn c ∧
        ((offers contested.history).map (·.2)).Perm
          ((receipts contested.history).map (·.2) ++ valuesIn c) := by
  have hs : contested.Reachable := .foldl .initial _
  obtain ⟨c, hc, hlinks, hidle⟩ := hs.delivered_in_order.1
  exact ⟨hs, by decide +kernel, by decide +kernel, c, hc, hlinks, hidle contested_idle⟩

end QueueState
end Interleaved
end Reclaim
