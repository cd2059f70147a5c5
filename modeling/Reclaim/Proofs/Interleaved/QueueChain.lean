import Reclaim.Proofs.Interleaved.QueueDelivery

/-!
The chain of an interleaved queue after every single access: it ends, its tail is its last node or
the one before that, and behind the head no value has been claimed (`Tight`). The head moves
forward only, so a node that it has left is never come to again (`Advanced`).
-/

set_option autoImplicit false

namespace Reclaim

namespace Nodes
variable {V : Type} {nodes : Nodes V} {start : Option Address} {a : Address} {l : List Address}

inductive LeadsTo (nodes : Nodes V) : Option Address → Address → Prop where
  | here {a : Address} : LeadsTo nodes (some a) a
  | next {a b : Address} {n : Node V} : nodes.get? a = some n → LeadsTo nodes n.next b →
      LeadsTo nodes (some a) b

theorem Path.leadsTo_iff (h : Path nodes start l) : nodes.LeadsTo start a ↔ a ∈ l := by
  constructor
  · intro ha
    induction ha generalizing l with
    | here =>
      cases h
      exact List.mem_cons_self
    | next hn _ ih =>
      cases h with
      | cons hn' hrest =>
        obtain rfl := Option.some.inj (hn.symm.trans hn')
        exact List.mem_cons_of_mem _ (ih hrest)
  · intro ha
    induction h with
    | nil => cases ha
    | cons hn _ ih =>
      rcases List.mem_cons.1 ha with rfl | ha
      · exact .here
      · exact .next hn (ih ha)

end Nodes

namespace Interleaved
variable {V σ : Type} {s s' : Shared V} {h es : List (QueueEvent V)} {a b : Address} {t : ThreadId}
  {fresh : Address} {i j j' : Nat} {o : Operation} {o' : Option Operation}
  {ops : ThreadId → Option Operation} {wrap : σ → Operation} {p : Progress σ V}

theorem Shape.places_unique {ls : List (Address × V)} {i' j' : Nat} (h : Shape s ls i j)
    (h' : Shape s ls i' j') : i = i' ∧ j = j' :=
  ⟨(List.getElem?_inj h.front_lt h.nodup).1 (h.head.symm.trans h'.head),
    (List.getElem?_inj h.lt h.nodup).1 (h.tail.symm.trans h'.tail)⟩

structure Tight (s : Shared V) (h : List (QueueEvent V)) (ops : ThreadId → Option Operation)
    (i j : Nat) : Prop where
  shape : Shape s (links h) i j
  last : (order (links h)).length ≤ j + 2
  full : ∀ a ∈ (order (links h)).drop (i + 1), ∃ v, s.slotOf a = .full v
  linking : ∀ t a b, ops t = some (.enqueue a (.link b)) → b ∈ (order (links h)).take (j + 1)

namespace Tight

theorem not_mem_drop (T : Tight s h ops i j) (ha : a ∈ (order (links h)).take (i + 1)) :
    a ∉ (order (links h)).drop (i + 1) := by
  have hnodup := T.shape.nodup
  rw [← List.take_append_drop (i + 1) (order (links h))] at hnodup
  exact fun hdrop => (List.nodup_append.1 hnodup).2.2 a ha a hdrop rfl

/-- Nothing is linked or unlinked, and behind the head all values stay. -/
theorem keep (T : Tight s h ops i j) (hs : Shape s' (links h) i j') (hlinks : links es = [])
    (hj : j ≤ j') (hfull : ∀ a ∈ (order (links h)).drop (i + 1), s'.slotOf a = s.slotOf a)
    (ho : ∀ a b, o' = some (.enqueue a (.link b)) → b ∈ (order (links h)).take (j + 1)) :
    Tight s' (es ++ h) (Function.update ops t o') i j' := by
  have hl : links (es ++ h) = links h := links_append_of_nil hlinks
  refine ⟨hl ▸ hs, ?_, ?_, ?_⟩
  · rw [hl]
    exact Nat.le_trans T.last (Nat.add_le_add_right hj 2)
  · intro a ha
    rw [hl] at ha
    rw [hfull a ha]
    exact T.full a ha
  · intro u a b hu
    apply mem_take_order (Nat.succ_le_succ hj)
    by_cases hut : u = t
    · rw [hut, Function.update_self] at hu
      exact ho a b hu
    · rw [Function.update_of_ne hut] at hu
      exact T.linking u a b hu

/-- A node is linked behind the last one, which the tail has come to then. -/
theorem link (T : Tight s h ops i j) {v : V} (ht : ops t = some (.enqueue a (.link b)))
    (hnext : s.nextOf b = none) (ha : s.slotOf a = .full v)
    (hs : Shape (s.setNext b a) (links ([.linked a v] ++ h)) i j) :
    Tight (s.setNext b a) ([.linked a v] ++ h)
      (Function.update ops t (some (.enqueue a (.advance b a true)))) i j := by
  have hlinks : links ([.linked a v] ++ h) = links h ++ [(a, v)] := told_append ..
  have hlt := T.shape.lt
  refine ⟨hs, ?_, ?_, ?_⟩
  · obtain ⟨k, hkj, hk⟩ := mem_take.1 (T.linking t a b ht)
    rw [T.shape.nextOf_eq hk, List.getElem?_eq_none_iff] at hnext
    rw [hlinks, order_append, List.length_append, List.length_singleton]
    omega
  · intro c hc
    rw [hlinks, order_append, List.drop_append_of_le_length T.shape.front_lt, List.mem_append,
      List.mem_singleton] at hc
    rw [Shared.slotOf_setNext]
    rcases hc with hc | rfl
    · exact T.full c hc
    · exact ⟨v, ha⟩
  · intro u c d hu
    apply mem_take_order (Nat.le_refl _)
    by_cases hut : u = t
    · rw [hut, Function.update_self] at hu
      cases hu
    · rw [Function.update_of_ne hut] at hu
      exact T.linking u c d hu

theorem unlink (T : Tight s h ops i j) {q : Queue} (hlinks : links es = [])
    (hs : Shape { s with queue := q } (links h) (i + 1) j) :
    Tight { s with queue := q } (es ++ h)
      (Function.update ops t (some (.dequeue (.test a false)))) (i + 1) j := by
  have hl : links (es ++ h) = links h := links_append_of_nil hlinks
  refine ⟨hl ▸ hs, hl ▸ T.last, ?_, ?_⟩
  · intro c hc
    rw [hl, ← List.drop_drop] at hc
    exact T.full c (List.mem_of_mem_drop hc)
  · intro u c d hu
    rw [hl]
    by_cases hut : u = t
    · rw [hut, Function.update_self] at hu
      cases hu
    · rw [Function.update_of_ne hut] at hu
      exact T.linking u c d hu

end Tight

def Advances (h : List (QueueEvent V)) (ops : ThreadId → Option Operation) (t : ThreadId) (i : Nat)
    (wrap : σ → Operation) (r : Progress σ V × Shared V × List (QueueEvent V)) : Prop :=
  ∃ i' j', i ≤ i' ∧ Tight r.2.1 (r.1.closing t ++ (r.2.2 ++ h))
    (Function.update ops t (r.1.operation wrap)) i' j'

theorem Tight.advances (T : Tight s h ops i j) (hs : Shape s' (links h) i j') (hj : j ≤ j')
    (hlinks : links es = [])
    (hfull : ∀ a ∈ (order (links h)).drop (i + 1), s'.slotOf a = s.slotOf a)
    (ho : ∀ a b, p.operation wrap = some (.enqueue a (.link b)) →
      b ∈ (order (links h)).take (j + 1)) :
    Advances h ops t i wrap (p, s', es) := by
  refine ⟨i, j', Nat.le_refl i, ?_⟩
  rw [← List.append_assoc]
  refine T.keep hs ?_ hj hfull ho
  rw [links_append, Progress.links_closing, hlinks]
  rfl

theorem Tight.reads (T : Tight s h ops i j)
    (ho : ∀ a b, p.operation wrap = some (.enqueue a (.link b)) →
      b ∈ (order (links h)).take (j + 1)) :
    Advances h ops t i wrap (p, s, []) :=
  T.advances T.shape (Nat.le_refl j) rfl (fun _ _ => rfl) ho

/-- Writing the slot of a node up to the head leaves those behind it alone. -/
theorem Tight.writes (T : Tight s h ops i j) (ha : a ∈ (order (links h)).take (i + 1))
    (slot : Slot V) (hlinks : links es = [])
    (ho : ∀ a b, p.operation wrap ≠ some (.enqueue a (.link b))) :
    Advances h ops t i wrap (p, s.setSlot a slot, es) := by
  apply T.advances (T.shape.setSlot slot) (Nat.le_refl j) hlinks
  · intro c hc
    rw [Shared.slotOf_setSlot (T.shape.isSome (List.mem_of_mem_take ha)), if_neg]
    rintro rfl
    exact T.not_mem_drop ha hc
  · exact fun a b hab => absurd hab (ho a b)

theorem Tight.enqueuing_step (T : Tight s h ops i j) (I : Inv s h ops fresh i j)
    {next : Enqueuing} (ht : ops t = some (.enqueue a next)) :
    Advances h ops t i (.enqueue a) (next.step s a) := by
  have hfits := I.fits t _ ht
  cases next with
  | readTail => exact T.reads (by rintro _ _ ⟨⟩)
  | confirmTail seen =>
    cases seen with
    | none =>
      rw [Enqueuing.step]
      split
      · exact T.reads (by rintro _ _ ⟨⟩)
      · exact T.reads (by rintro _ _ ⟨⟩)
    | some b =>
      rw [Enqueuing.step]
      split
      · rename_i htail
        refine T.reads ?_
        rintro _ _ ⟨⟩
        exact mem_take.2 ⟨j, Nat.lt_succ_self j, T.shape.tail.symm.trans htail⟩
      · exact T.reads (by rintro _ _ ⟨⟩)
  | link b =>
    rw [Enqueuing.step]
    split
    · rename_i hnext
      obtain ⟨v, hv, hI⟩ := I.link ht hnext
      rw [hv]
      exact ⟨i, j, Nat.le_refl i, T.link ht hnext hv hI.shape⟩
    · exact T.reads (by rintro _ _ ⟨⟩)
  | advance b c linked =>
    obtain ⟨j', hj, hs⟩ := I.shape.advanceTail hfits
    rw [Enqueuing.step]
    refine T.advances hs hj rfl (fun _ _ => rfl) ?_
    cases linked <;> rintro _ _ ⟨⟩
  | count =>
    rw [Enqueuing.step]
    refine T.advances (T.shape.count rfl rfl) (Nat.le_refl j) rfl (fun _ _ => rfl) ?_
    rintro _ _ ⟨⟩

theorem Tight.dequeuing_step (T : Tight s h ops i j) (I : Inv s h ops fresh i j)
    {next : Dequeuing} (ht : ops t = some (.dequeue next)) :
    Advances h ops t i .dequeue (next.step s) := by
  have hfits := I.fits t _ ht
  have hnew {p : Progress Dequeuing V} :
      ∀ a b, p.operation .dequeue ≠ some (.enqueue a (.link b)) := by
    cases p <;> rintro _ _ ⟨⟩
  have hreads {p : Progress Dequeuing V} : Advances h ops t i .dequeue (p, s, []) :=
    T.reads fun a b hab => absurd hab (hnew a b)
  cases next with
  | readHead => exact hreads
  | confirmHead seen =>
    cases seen <;> rw [Dequeuing.step] <;> split <;> exact hreads
  | readTail a =>
    rw [Dequeuing.step]
    split <;> exact hreads
  | test a alone =>
    rw [Dequeuing.step]
    split <;> exact hreads
  | claim a alone =>
    obtain ⟨hseen, -⟩ : Seen s h i t a ∧ (alone = false → _) := hfits
    rw [Dequeuing.step]
    split
    · rename_i slot _
      refine T.writes hseen.passed slot ?_ hnew
      cases (s.slotOf a).value? <;> split <;> rfl
    · exact hreads
  | readNext a alone =>
    rw [Dequeuing.step]
    split
    · split <;> exact hreads
    · exact hreads
  | advance a b =>
    obtain ⟨j', hj, hs⟩ := I.shape.advanceTail hfits
    rw [Dequeuing.step]
    exact T.advances hs hj rfl (fun _ _ => rfl) fun a b hab => absurd hab (hnew a b)
  | unlink a b =>
    rw [Dequeuing.step]
    split
    · rename_i q hq
      obtain ⟨hpassed, hnext⟩ : a ∈ (order (links h)).take j ∧ s.nextOf a = some b := hfits
      refine ⟨i + 1, j, Nat.le_succ i, T.unlink ?_ (I.shape.exchangeHead hq hpassed hnext)⟩
      cases (s.slotOf a).value? <;> rfl
    · exact hreads
  | count a =>
    rw [Dequeuing.step]
    exact T.advances (T.shape.count rfl rfl) (Nat.le_refl j) rfl (fun _ _ => rfl)
      fun a b hab => absurd hab (hnew a b)
  | take a =>
    -- Only nodes up to the head are claimed: behind it all slots are full.
    obtain ⟨ha, v, hv, -⟩ := I.claims.held t a (by rw [ht]; rfl)
    rw [← List.take_append_drop (i + 1) (order (links h)), List.mem_append] at ha
    rcases ha with ha | ha
    · exact T.writes ha _ rfl hnew
    · obtain ⟨w, hw⟩ := T.full a ha
      rw [hv] at hw
      cases hw

theorem Tight.beginEnqueue (T : Tight s h ops i j) (hnew : s.nodes.get? fresh = none) (v : V) :
    Tight { s with nodes := s.nodes.insert fresh { slot := .full v } }
      ([.begun t (some (fresh, v))] ++ h)
      (Function.update ops t (some (.enqueue fresh .readTail))) i j := by
  refine T.keep (T.shape.insert hnew _) rfl (Nat.le_refl j) ?_ (by rintro _ _ ⟨⟩)
  intro a ha
  have haf : a ≠ fresh := by
    rintro rfl
    have hcell := T.shape.isSome (List.mem_of_mem_drop ha)
    rw [hnew] at hcell
    cases hcell
  rw [Shared.slotOf, Shared.slotOf, Table.get?_insert_of_ne haf]

theorem Tight.beginDequeue (T : Tight s h ops i j) :
    Tight s ([.begun t none] ++ h) (Function.update ops t (some (.dequeue .readHead))) i j :=
  T.keep T.shape rfl (Nat.le_refl j) (fun _ _ => rfl) (by rintro _ _ ⟨⟩)

namespace QueueState

/-- The head is at place `i` of the nodes in the order in which they were linked. -/
def HeadAt (s : QueueState V) (i : Nat) : Prop :=
  ∃ j, Inv s.shared s.history s.pending.get? s.fresh i j ∧
    Tight s.shared s.history s.pending.get? i j

/-- The head has come to place `i'` of the order, of which nothing was taken back. -/
def Advanced (s s' : QueueState V) (i : Nat) : Prop :=
  ∃ i', i ≤ i' ∧ s.history <:+ s'.history ∧ s'.HeadAt i'

theorem HeadAt.advanced {s : QueueState V} (hs : s.HeadAt i) : s.Advanced s i :=
  ⟨i, Nat.le_refl i, List.suffix_rfl, hs⟩

theorem advanced_settle {s : QueueState V} {r : Progress σ V × Shared V × List (QueueEvent V)}
    (hI : Keeps s.history s.pending.get? s.fresh t wrap r)
    (hT : Advances s.history s.pending.get? t i wrap r) : s.Advanced (s.settle t wrap r) i := by
  obtain ⟨i₁, j₁, hI⟩ := hI
  obtain ⟨i', j', hi, hT⟩ := hT
  obtain ⟨rfl, rfl⟩ := hI.shape.places_unique hT.shape
  obtain ⟨p, shared, events⟩ := r
  have hsuffix : s.history <:+ events ++ s.history := List.suffix_append ..
  refine ⟨i₁, hi, ?_, j₁, ?_⟩
  · cases p with
    | next o => exact hsuffix
    | returned v => exact hsuffix.trans (List.suffix_cons ..)
    | inserted => exact hsuffix.trans (List.suffix_cons ..)
  · cases p with
    | next o =>
      change Inv shared (events ++ s.history) (s.pending.insert t (wrap o)).get? s.fresh i₁ j₁ ∧
        Tight shared (events ++ s.history) (s.pending.insert t (wrap o)).get? i₁ j₁
      rw [get?_insert_eq_update]
      exact ⟨hI, hT⟩
    | returned v =>
      change Inv shared (.returned t v :: (events ++ s.history)) (s.pending.erase t).get? s.fresh
        i₁ j₁ ∧ Tight shared (.returned t v :: (events ++ s.history)) (s.pending.erase t).get? i₁ j₁
      rw [get?_erase_eq_update]
      exact ⟨hI, hT⟩
    | inserted =>
      change Inv shared (.inserted t :: (events ++ s.history)) (s.pending.erase t).get? s.fresh
        i₁ j₁ ∧ Tight shared (.inserted t :: (events ++ s.history)) (s.pending.erase t).get? i₁ j₁
      rw [get?_erase_eq_update]
      exact ⟨hI, hT⟩

theorem HeadAt.beginEnqueue {s : QueueState V} (hs : s.HeadAt i) (ht : s.pending.get? t = none)
    (v : V) : s.Advanced (s.move (.enqueue t v)) i := by
  obtain ⟨j, hI, hT⟩ := hs
  have hbegin := hI.beginEnqueue ht v
  have hT' := hT.beginEnqueue (t := t) hI.offered.get?_fresh v
  rw [← get?_insert_eq_update] at hbegin hT'
  rw [QueueState.move, ht]
  exact ⟨i, Nat.le_refl i, List.suffix_cons .., j, hbegin, hT'⟩

theorem HeadAt.beginDequeue {s : QueueState V} (hs : s.HeadAt i) (ht : s.pending.get? t = none) :
    s.Advanced (s.move (.dequeue t)) i := by
  obtain ⟨j, hI, hT⟩ := hs
  have hbegin := hI.beginDequeue ht
  have hT' := hT.beginDequeue (t := t)
  rw [← get?_insert_eq_update] at hbegin hT'
  rw [QueueState.move, ht]
  exact ⟨i, Nat.le_refl i, List.suffix_cons .., j, hbegin, hT'⟩

theorem HeadAt.move {s : QueueState V} (hs : s.HeadAt i) (m : QueueMove V) :
    s.Advanced (s.move m) i := by
  cases m with
  | enqueue t v =>
    cases ht : s.pending.get? t with
    | some o =>
      rw [QueueState.move, ht]
      exact hs.advanced
    | none => exact hs.beginEnqueue ht v
  | dequeue t =>
    cases ht : s.pending.get? t with
    | some o =>
      rw [QueueState.move, ht]
      exact hs.advanced
    | none => exact hs.beginDequeue ht
  | step t =>
    obtain ⟨j, hI, hT⟩ := id hs
    cases ht : s.pending.get? t with
    | none =>
      rw [QueueState.move, ht]
      exact hs.advanced
    | some o =>
      cases o with
      | enqueue node next =>
        rw [QueueState.move, ht]
        exact advanced_settle (hI.enqueuing_step ht) (hT.enqueuing_step hI ht)
      | dequeue next =>
        rw [QueueState.move, ht]
        exact advanced_settle (hI.dequeuing_step ht) (hT.dequeuing_step hI ht)

theorem HeadAt.foldl {s : QueueState V} (hs : s.HeadAt i) (ms : List (QueueMove V)) :
    s.Advanced (ms.foldl QueueState.move s) i := by
  induction ms generalizing s i with
  | nil => exact hs.advanced
  | cons m ms ih =>
    obtain ⟨i₁, hi₁, hsuffix₁, h₁⟩ := hs.move m
    obtain ⟨i₂, hi₂, hsuffix₂, h₂⟩ := ih h₁
    exact ⟨i₂, Nat.le_trans hi₁ hi₂, hsuffix₁.trans hsuffix₂, h₂⟩

theorem headAt_initial : (initial : QueueState V).HeadAt 0 := by
  obtain ⟨i, j, hI⟩ := valid_initial (V := V)
  have hpath : Shape (initial : QueueState V).shared (links []) 0 0 :=
    ⟨.cons (Table.get?_insert_self ..) .nil, rfl, rfl, Nat.le_refl 0, Nat.zero_lt_one⟩
  obtain ⟨rfl, rfl⟩ := hI.shape.places_unique hpath
  refine ⟨0, hI, hpath, ?_, ?_, ?_⟩
  · exact Nat.le_succ 1
  · exact fun a ha => absurd ha List.not_mem_nil
  · intro t a b ht
    rw [initial, Table.get?_empty] at ht
    cases ht

theorem Reachable.headAt {s : QueueState V} (hs : s.Reachable) : ∃ i, s.HeadAt i := by
  induction hs with
  | initial => exact ⟨0, headAt_initial⟩
  | move m _ ih =>
    obtain ⟨i, hi⟩ := ih
    obtain ⟨i', -, -, hi'⟩ := hi.move m
    exact ⟨i', hi'⟩

end QueueState

namespace Tight

/-- The tail is the last node of the chain or the one before it. -/
theorem tail_eq (T : Tight s h ops i j) :
    ∃ t, s.queue.tail = some t ∧ (((order (links h)).drop i).getLast? = some t ∨
      ((order (links h)).drop i).dropLast.getLast? = some t) := by
  have hlt := T.shape.lt
  have hle := T.shape.le
  have hlast := T.last
  have htail := T.shape.tail
  rw [List.getElem?_eq_getElem hlt] at htail
  refine ⟨_, htail, ?_⟩
  rw [List.getLast?_eq_getElem?, List.getLast?_eq_getElem?, List.getElem?_dropLast,
    List.length_dropLast, List.length_drop, List.getElem?_drop, List.getElem?_drop]
  by_cases hend : (order (links h)).length = j + 1
  · left
    rw [show i + ((order (links h)).length - i - 1) = j by omega, List.getElem?_eq_getElem hlt]
  · right
    rw [if_pos (by omega), show i + ((order (links h)).length - i - 1 - 1) = j by omega,
      List.getElem?_eq_getElem hlt]

theorem not_leadsTo (T : Tight s h ops i j) (ha : a ∈ (order (links h)).take i) :
    ¬ s.nodes.LeadsTo s.queue.head a ∧ ¬ s.nodes.LeadsTo s.queue.tail a := by
  have hdrop := T.shape.not_mem_drop ha
  rw [T.shape.head, T.shape.tail, (T.shape.path.drop i).leadsTo_iff,
    (T.shape.path.drop j).leadsTo_iff]
  refine ⟨hdrop, fun hmem => hdrop ?_⟩
  exact List.drop_subset_drop_left _ T.shape.le hmem

end Tight

namespace QueueState

/-- After every access the chain from the head ends and comes to no node twice, the tail is its
last node or the one before that, and every node behind the head holds a value that nobody has
claimed. A node that the head has left is never come to again, neither from the head nor from the
tail. -/
theorem Reachable.chain_intact {s : QueueState V} (hs : s.Reachable) :
    (∃ c t, s.shared.queue.chain s.shared.nodes = some c ∧ c ≠ [] ∧
      Nodes.Path s.shared.nodes s.shared.queue.head (c.map (·.1)) ∧ (c.map (·.1)).Nodup ∧
      s.shared.queue.tail = some t ∧ t ∈ c.map (·.1) ∧
      ((c.map (·.1)).getLast? = some t ∨ (c.map (·.1)).dropLast.getLast? = some t) ∧
      ∀ e ∈ c.tail, e.2.slot.isValid = true) ∧
    ∀ (a : Address) (ms ms' : List (QueueMove V)), s.shared.queue.head = some a →
      (ms.foldl QueueState.move s).shared.queue.head ≠ some a →
      let s' := (ms ++ ms').foldl QueueState.move s
      ¬ s'.shared.nodes.LeadsTo s'.shared.queue.head a ∧
        ¬ s'.shared.nodes.LeadsTo s'.shared.queue.tail a := by
  obtain ⟨i, hi⟩ := hs.headAt
  obtain ⟨j, -, T⟩ := id hi
  refine ⟨?_, ?_⟩
  · have hpath := T.shape.path.drop i
    rw [← T.shape.head] at hpath
    obtain ⟨c, hc, hl, -⟩ := hpath.chainFrom hpath.length_le_size
    obtain ⟨t, ht, hlast⟩ := T.tail_eq
    refine ⟨c, t, hc, ?_, hl ▸ hpath, hl ▸ hpath.nodup, ht, ?_, hl ▸ hlast, ?_⟩
    · rintro rfl
      have hlt := T.shape.front_lt
      have hnil : (order (links s.history)).length ≤ i := List.drop_eq_nil_iff.1 hl.symm
      omega
    · rw [hl]
      exact hlast.elim List.mem_of_getLast? fun h =>
        List.dropLast_subset _ (List.mem_of_getLast? h)
    · intro e he
      have hbehind : e.1 ∈ (order (links s.history)).drop (i + 1) := by
        rw [← List.tail_drop, ← hl, ← List.map_tail]
        exact List.mem_map_of_mem he
      obtain ⟨v, hv⟩ := T.full e.1 hbehind
      rw [Shared.slotOf, Nodes.get?_of_mem_chainFrom hc e (List.mem_of_mem_tail he)] at hv
      change e.2.slot = .full v at hv
      rw [hv]
      rfl
  · intro a ms ms' hhead hleft
    obtain ⟨i₁, hi₁, ⟨es₁, hes₁⟩, h₁⟩ := hi.foldl ms
    obtain ⟨i₂, hi₂, ⟨es₂, hes₂⟩, j₂, -, T₂⟩ := h₁.foldl ms'
    obtain ⟨j₁, -, T₁⟩ := h₁
    have hold : a ∈ (order (links s.history)).take (i + 1) := T.shape.mem_take_succ.2 (.inr hhead)
    have hpassed : a ∈ (order (links (es₁ ++ s.history))).take (i₁ + 1) :=
      mem_take_order (Nat.succ_le_succ hi₁) hold
    rw [hes₁] at hpassed
    -- The head is not there any more, so it has gone past the node.
    have hgone := (T₁.shape.mem_take_succ.1 hpassed).resolve_right hleft
    have hlater :
        a ∈ (order (links (es₂ ++ (ms.foldl QueueState.move s).history))).take i₂ :=
      mem_take_order hi₂ hgone
    rw [hes₂] at hlater
    rw [List.foldl_append]
    exact T₂.not_leadsTo hlater

/-- The one value of a queue is claimed in place, and another is linked behind its node. -/
def overtaken : List (QueueMove Nat) :=
  let steps (n : Nat) (t : ThreadId) : List (QueueMove Nat) := List.replicate n (.step t)
  .enqueue 0 7 :: steps 5 0 ++ .dequeue 1 :: steps 13 1 ++ .enqueue 0 8 :: steps 3 0

def lagging : QueueState Nat := overtaken.foldl QueueState.move initial

theorem lagging_intact :
    lagging.Reachable ∧ lagging.shared.queue.head = some 2 ∧ lagging.shared.queue.tail = some 2 ∧
      (∃ c t, lagging.shared.queue.chain lagging.shared.nodes = some c ∧ c.map (·.1) = [2, 3] ∧
        lagging.shared.queue.tail = some t ∧ (c.map (·.1)).dropLast.getLast? = some t ∧
        ∀ e ∈ c.tail, e.2.slot.isValid = true) ∧
      (initial : QueueState Nat).shared.queue.head = some 1 ∧
      ∀ ms' : List (QueueMove Nat),
        let s := (overtaken ++ ms').foldl QueueState.move initial
        ¬ s.shared.nodes.LeadsTo s.shared.queue.head 1 := by
  have hs : lagging.Reachable := .foldl .initial _
  obtain ⟨c, t, hc, -, -, -, ht, -, -, hvalid⟩ := hs.chain_intact.1
  have hnodes : c.map (·.1) = [2, 3] := by
    have hmap : (lagging.shared.queue.chain lagging.shared.nodes).map (·.map (·.1)) =
        some [2, 3] := by decide +kernel
    rw [hc] at hmap
    exact Option.some.inj hmap
  have htail : lagging.shared.queue.tail = some 2 := by decide +kernel
  have hhead : lagging.shared.queue.head = some 2 := by decide +kernel
  obtain rfl := Option.some.inj (htail.symm.trans ht)
  refine ⟨hs, hhead, htail, ⟨c, 2, hc, hnodes, ht, by rw [hnodes]; rfl, hvalid⟩, rfl,
    fun ms' => ?_⟩
  have hleft : lagging.shared.queue.head ≠ some 1 := by
    rw [hhead]
    decide
  exact ((Reachable.initial (V := Nat)).chain_intact.2 1 overtaken ms' rfl hleft).1

end QueueState
end Interleaved
end Reclaim
