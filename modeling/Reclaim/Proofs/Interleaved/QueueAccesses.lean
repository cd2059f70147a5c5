import Reclaim.Proofs.Interleaved.QueueInvariant

set_option autoImplicit false

namespace Reclaim.Interleaved
variable {V σ : Type} {s s' : Shared V} {h : List (QueueEvent V)} {a : Address} {t : ThreadId}
  {fresh : Address} {i j j' : Nat} {o : Operation} {ops : ThreadId → Option Operation}
  {wrap : σ → Operation} {p : Progress σ V}

namespace Progress

def operation (wrap : σ → Operation) : Progress σ V → Option Operation
  | next o => some (wrap o)
  | _ => none

def closing (t : ThreadId) : Progress σ V → List (QueueEvent V)
  | next _ => []
  | returned v => [.returned t v]
  | inserted => [.inserted t]

def found? : Progress σ V → Option (Address × V)
  | returned found => found
  | _ => none

theorem isInner_of_mem_closing (hp : p.found? = none) : ∀ e ∈ p.closing t, e.isInner := by
  cases p with
  | next o => simp [closing]
  | returned found =>
    change found = none at hp
    simp [closing, hp, QueueEvent.isInner, QueueEvent.offer?, QueueEvent.receipt?,
      QueueEvent.begins]
  | inserted =>
    simp [closing, QueueEvent.isInner, QueueEvent.offer?, QueueEvent.receipt?, QueueEvent.begins]

theorem links_closing : links (p.closing t) = [] := by
  cases p <;> rfl

theorem removals_closing : removals (p.closing t) = [] := by
  cases p <;> rfl

end Progress

def Keeps (h : List (QueueEvent V)) (ops : ThreadId → Option Operation) (fresh : Address)
    (t : ThreadId) (wrap : σ → Operation) (r : Progress σ V × Shared V × List (QueueEvent V)) :
    Prop :=
  ∃ i j, Inv r.2.1 (r.1.closing t ++ (r.2.2 ++ h)) (Function.update ops t (r.1.operation wrap))
    fresh i j

def Operation.roles (o : Option Operation) : Option Address × Option Address × Option Address :=
  (o.bind offered, o.bind claims, o.bind unlinks)

theorem Inv.keeps (I : Inv s h ops fresh i j) (ht : ops t = some o)
    (hs : Shape s' (links h) i j') (hnodes : s'.nodes = s.nodes) (hj : j ≤ j')
    (hp : p.found? = none) (hroles : Operation.roles (p.operation wrap) = Operation.roles (some o))
    (hfits : (p.operation wrap).elim True (Fits s' h i j' t)) :
    Keeps h ops fresh t wrap (p, s', []) := by
  obtain ⟨hoffered, hrest⟩ := Prod.mk.inj hroles
  obtain ⟨hclaims, hunlinks⟩ := Prod.mk.inj hrest
  refine ⟨i, j', I.quiet ht hs hnodes hj (Progress.isInner_of_mem_closing hp)
    Progress.links_closing Progress.removals_closing hoffered hclaims
    (fun a v ha _ => hunlinks.trans ha) fun o ho => ?_⟩
  cases p with
  | next n =>
    obtain rfl := Option.some.inj ho
    exact hfits
  | returned v => cases ho
  | inserted => cases ho

theorem Inv.reads (I : Inv s h ops fresh i j) (ht : ops t = some o) (hp : p.found? = none)
    (hroles : Operation.roles (p.operation wrap) = Operation.roles (some o))
    (hfits : (p.operation wrap).elim True (Fits s h i j t)) :
    Keeps h ops fresh t wrap (p, s, []) :=
  I.keeps ht I.shape rfl (Nat.le_refl j) hp hroles hfits

/-- A removal that found no value in a node that it has seen passes on. -/
theorem Inv.passes (I : Inv s h ops fresh i j) {alone : Bool} (ht : ops t = some o)
    (hseen : Seen s h i t a) (hnot : ∀ v, s.slotOf a ≠ .full v) (hoffered : o.offered = none)
    (hclaims : o.claims = none) (hunlinks : ∀ b, o.unlinks = some b → b = a) :
    Keeps h ops fresh t .dequeue
      (.next (if alone then .readNext a true else .readHead), s, []) := by
  have hself : ∀ b v, o.unlinks = some b → s.slotOf b ≠ .full v := by
    intro b v hb
    rw [hunlinks b hb]
    exact hnot v
  refine ⟨i, j, I.quiet ht I.shape rfl (Nat.le_refl j) (Progress.isInner_of_mem_closing rfl) rfl rfl
    ?_ ?_ (fun b v hb hv => absurd hv (hself b v hb)) ?_⟩
  · cases alone <;> exact hoffered.symm
  · cases alone <;> exact hclaims.symm
  · intro o ho
    obtain rfl := Option.some.inj ho
    cases alone with
    | false => trivial
    | true => exact ⟨hseen.passed, hnot⟩

theorem Inv.enqueuing_step (I : Inv s h ops fresh i j) {next : Enqueuing}
    (ht : ops t = some (.enqueue a next)) :
    Keeps h ops fresh t (.enqueue a) (next.step s a) := by
  have hfits := I.fits t _ ht
  cases next with
  | readTail => exact I.reads ht rfl rfl trivial
  | confirmTail seen =>
    cases seen with
    | none =>
      rw [Enqueuing.step]
      split
      · exact I.reads ht rfl rfl trivial
      · exact I.reads ht rfl rfl trivial
    | some b =>
      rw [Enqueuing.step]
      split
      · rename_i htail
        exact I.reads ht rfl rfl (I.shape.tail_mem htail)
      · exact I.reads ht rfl rfl trivial
  | link b =>
    rw [Enqueuing.step]
    split
    · rename_i hnext
      obtain ⟨v, hv, hI⟩ := I.link ht hnext
      rw [hv]
      exact ⟨i, j, hI⟩
    · rename_i c hnext
      exact I.reads ht rfl rfl hnext
  | advance b c linked =>
    obtain ⟨j', hj, hs⟩ := I.shape.advanceTail hfits
    rw [Enqueuing.step]
    cases linked with
    | false => exact I.keeps ht hs rfl hj rfl rfl trivial
    | true => exact I.keeps ht hs rfl hj rfl rfl trivial
  | count => exact I.keeps ht (I.shape.count rfl rfl) rfl (Nat.le_refl j) rfl rfl trivial

theorem Inv.dequeuing_step (I : Inv s h ops fresh i j) {next : Dequeuing}
    (ht : ops t = some (.dequeue next)) :
    Keeps h ops fresh t .dequeue (next.step s) := by
  have hfits := I.fits t _ ht
  cases next with
  | readHead => exact I.reads ht rfl rfl trivial
  | confirmHead seen =>
    cases seen with
    | none =>
      rw [Dequeuing.step]
      split
      · exact I.reads ht rfl rfl trivial
      · exact I.reads ht rfl rfl trivial
    | some a =>
      rw [Dequeuing.step]
      split
      · rename_i hhead
        exact I.reads ht rfl rfl (I.shape.seen_head hhead)
      · exact I.reads ht rfl rfl trivial
  | readTail a =>
    have hseen : Seen s h i t a := hfits
    rw [Dequeuing.step]
    split
    · exact I.reads ht rfl rfl ⟨hseen, fun halone => by cases halone⟩
    · rename_i htail
      exact I.reads ht rfl rfl (I.shape.mem_take_of_ne_tail hseen.passed htail)
  | test a alone =>
    obtain ⟨hseen, hback⟩ : Seen s h i t a ∧ (alone = false → _) := hfits
    rw [Dequeuing.step]
    split
    · exact I.reads ht rfl (by cases alone <;> rfl) ⟨hseen, hback⟩
    · rename_i hvalid
      apply I.passes ht hseen (fun v hv => hvalid (by rw [hv]; rfl)) rfl rfl
      intro b hb
      cases alone with
      | false => exact (Option.some.inj hb).symm
      | true => cases hb
  | claim a alone =>
    obtain ⟨hseen, hback⟩ : Seen s h i t a ∧ (alone = false → _) := hfits
    by_cases hfull : ∃ v, s.slotOf a = .full v
    · obtain ⟨v, hv⟩ := hfull
      have hstep : (Dequeuing.claim a alone).step s = (.next (.count a), s.setSlot a (.claimed v),
          if s.queue.head = some a then [.removed a v] else []) := by
        simp only [Dequeuing.step, hv, Slot.claim, Slot.value?]
        split <;> rfl
      rw [hstep]
      exact ⟨i, j, I.claim ht hv rfl⟩
    -- Another thread was first: a claimed slot is empty for all that come later.
    · have hclaim : (s.slotOf a).claim = (false, s.slotOf a) := by
        cases hv : s.slotOf a with
        | full v => exact absurd ⟨v, hv⟩ hfull
        | vacant => rfl
        | claimed v => rfl
      rw [Dequeuing.step, hclaim]
      apply I.passes ht hseen (fun v hv => hfull ⟨v, hv⟩) rfl rfl
      intro b hb
      cases alone with
      | false => exact (Option.some.inj hb).symm
      | true => cases hb
  | readNext a alone =>
    cases alone with
    | false =>
      rw [Dequeuing.step]
      split
      · exact I.reads ht rfl rfl trivial
      · rename_i b hnext
        exact I.reads ht rfl rfl ⟨hfits, hnext⟩
    | true =>
      rw [Dequeuing.step]
      split
      · exact I.reads ht rfl rfl trivial
      · rename_i b hnext
        exact I.reads ht rfl rfl hnext
  | advance a b =>
    obtain ⟨j', hj, hs⟩ := I.shape.advanceTail hfits
    exact I.keeps ht hs rfl hj rfl rfl trivial
  | unlink a b =>
    rw [Dequeuing.step]
    split
    · rename_i q hq
      exact ⟨i + 1, j, I.unlink ht hq rfl⟩
    · exact I.reads ht rfl rfl trivial
  | count a => exact I.keeps ht (I.shape.count rfl rfl) rfl (Nat.le_refl j) rfl rfl trivial
  | take a =>
    obtain ⟨v, hv, hI⟩ := I.take ht
    rw [Dequeuing.step, hv]
    exact ⟨i, j, hI⟩

theorem get?_insert_eq_update (ops : Table ThreadId Operation) (t : ThreadId) (o : Operation) :
    (ops.insert t o).get? = Function.update ops.get? t (some o) := by
  funext u
  rw [Table.get?_insert, Function.update_apply]

theorem get?_erase_eq_update (ops : Table ThreadId Operation) (t : ThreadId) :
    (ops.erase t).get? = Function.update ops.get? t none := by
  funext u
  rw [Table.get?_erase, Function.update_apply]

namespace QueueState

def Valid (s : QueueState V) : Prop :=
  ∃ i j, Inv s.shared s.history s.pending.get? s.fresh i j

theorem valid_settle {s : QueueState V} {r : Progress σ V × Shared V × List (QueueEvent V)}
    (hr : Keeps s.history s.pending.get? s.fresh t wrap r) : (s.settle t wrap r).Valid := by
  obtain ⟨i, j, hI⟩ := hr
  obtain ⟨p, shared, events⟩ := r
  refine ⟨i, j, ?_⟩
  cases p with
  | next o =>
    change Inv shared (events ++ s.history) (s.pending.insert t (wrap o)).get? s.fresh i j
    rw [get?_insert_eq_update]
    exact hI
  | returned v =>
    change Inv shared (.returned t v :: (events ++ s.history)) (s.pending.erase t).get? s.fresh i j
    rw [get?_erase_eq_update]
    exact hI
  | inserted =>
    change Inv shared (.inserted t :: (events ++ s.history)) (s.pending.erase t).get? s.fresh i j
    rw [get?_erase_eq_update]
    exact hI

theorem Valid.move {s : QueueState V} (hs : s.Valid) (m : QueueMove V) : (s.move m).Valid := by
  obtain ⟨i, j, hI⟩ := hs
  cases m with
  | enqueue t v =>
    cases ht : s.pending.get? t with
    | some o =>
      rw [QueueState.move, ht]
      exact ⟨i, j, hI⟩
    | none =>
      have hbegin := hI.beginEnqueue ht v
      rw [← get?_insert_eq_update] at hbegin
      rw [QueueState.move, ht]
      exact ⟨i, j, hbegin⟩
  | dequeue t =>
    cases ht : s.pending.get? t with
    | some o =>
      rw [QueueState.move, ht]
      exact ⟨i, j, hI⟩
    | none =>
      have hbegin := hI.beginDequeue ht
      rw [← get?_insert_eq_update] at hbegin
      rw [QueueState.move, ht]
      exact ⟨i, j, hbegin⟩
  | step t =>
    cases ht : s.pending.get? t with
    | none =>
      rw [QueueState.move, ht]
      exact ⟨i, j, hI⟩
    | some o =>
      cases o with
      | enqueue node next =>
        rw [QueueState.move, ht]
        exact valid_settle (hI.enqueuing_step ht)
      | dequeue next =>
        rw [QueueState.move, ht]
        exact valid_settle (hI.dequeuing_step ht)

theorem valid_initial : (initial : QueueState V).Valid := by
  let nodes : Nodes V := Table.insert {} 1 {}
  have hget (a : Address) : nodes.get? a = if a = 1 then some {} else none := by
    rw [Table.get?_insert, Table.get?_empty]
  have hslot (a : Address) : (initial : QueueState V).shared.slotOf a = .vacant := by
    change ((nodes.get? a).map (·.slot)).getD .vacant = .vacant
    rw [hget]
    split <;> rfl
  have hops (t : ThreadId) : (initial : QueueState V).pending.get? t = none := Table.get?_empty t
  refine ⟨0, 0, ⟨?_, rfl, rfl, Nat.le_refl 0, Nat.zero_lt_one⟩, ⟨?_, ?_⟩,
    ⟨List.nodup_nil, fun x hx => absurd hx List.not_mem_nil, ?_,
      fun x hx => absurd hx List.not_mem_nil, ?_, fun _ _ => rfl⟩,
    ⟨?_, ?_, ?_,
      fun x hx => absurd hx List.not_mem_nil, fun x hx => absurd hx List.not_mem_nil,
      List.nodup_nil⟩,
    ?_, ⟨fun _ => .slnil, fun _ _ => .slnil, ?_⟩,
    ?_⟩
  · exact .cons (hget 1) .nil
  · intro a _ v hv
    rw [hslot] at hv
    rcases hv with hv | hv <;> cases hv
  · have hnone : (initial : QueueState V).shared.pair? 1 = none := by
      rw [Shared.pair?, hslot]
      rfl
    change [] = List.filterMap (initial : QueueState V).shared.pair? [1]
    rw [List.filterMap_cons, hnone, List.filterMap_nil]
  · intro a ha
    change (nodes.get? a).isSome = true at ha
    rw [hget] at ha
    split at ha
    · rename_i h
      exact h ▸ Nat.one_lt_two
    · cases ha
  · intro t a ha
    rw [hops] at ha
    cases ha
  · intro a v hv
    rw [hslot] at hv
    cases hv
  · intro t u a ht
    rw [hops] at ht
    cases ht
  · intro t a ht
    rw [hops] at ht
    cases ht
  · intro a _ v hv
    rw [hslot] at hv
    cases hv
  · intro t x l hl
    exact absurd (List.suffix_nil.1 hl) (List.cons_ne_nil _ _)
  · intro t o ht
    rw [hops] at ht
    cases ht

theorem Reachable.valid {s : QueueState V} (h : s.Reachable) : s.Valid := by
  induction h with
  | initial => exact valid_initial
  | move m _ ih => exact ih.move m

end QueueState
end Reclaim.Interleaved
