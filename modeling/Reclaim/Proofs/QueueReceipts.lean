import Reclaim.Proofs.QueueOrder

set_option autoImplicit false

namespace Reclaim
variable {V : Type}

namespace Event

def removal? : Event V → Option (QueueId × CallId × V)
  | removed i c _ v => some (i, c, v)
  | _ => none

def receipt? : Event V → Option (QueueId × CallId × V)
  | returned i c v => v.map fun v => (i, c, v)
  | _ => none

def returnedCall? : Event V → Option CallId
  | returned _ c _ => some c
  | _ => none

end Event

def Holding.call? : Holding V → Option CallId
  | call _ c | detached _ c _ _ | closing _ c _ => some c
  | _ => none

namespace World

def removals (w : World V) : List (QueueId × CallId × V) := w.history.filterMap Event.removal?

def receipts (w : World V) : List (QueueId × CallId × V) := w.history.filterMap Event.receipt?

def returnedCalls (w : World V) : List CallId := w.history.filterMap Event.returnedCall?

/-- The value an attempt has removed from a queue and not returned yet. -/
def suspension (w : World V) : Holding V → Option (QueueId × CallId × V)
  | .detached name c _ a => do
    let q ← w.queues.get? name
    let p ← w.memory.nodes.value? a
    some (q.id, c, p.value)
  | .closing i c v => v.map fun v => (i, c, v)
  | _ => none

structure Matched (w : World V) (hs : List (Holding V)) : Prop where
  values : w.removals.Perm (w.receipts ++ hs.filterMap w.suspension)
  calls : (w.returnedCalls ++ hs.filterMap Holding.call?).Nodup
  bounded : ∀ c ∈ w.returnedCalls ++ hs.filterMap Holding.call?, c < w.nextCall

/-- What was removed is returned or waits with its attempt, except for what is `lost`: the attempts
that had removed it are over, and have not returned. -/
structure Settled (w : World V) (hs : List (Holding V)) (lost : List (QueueId × CallId × V)) :
    Prop where
  values : w.removals.Perm (lost ++ (w.receipts ++ hs.filterMap w.suspension))
  calls : (w.returnedCalls ++ hs.filterMap Holding.call?).Nodup
  bounded : ∀ c ∈ w.returnedCalls ++ hs.filterMap Holding.call?, c < w.nextCall
  ended : ∀ x ∈ lost, x.2.1 < w.nextCall ∧
    x.2.1 ∉ w.returnedCalls ++ hs.filterMap Holding.call?

theorem settled_nil {w : World V} {hs : List (Holding V)} : w.Settled hs [] ↔ w.Matched hs :=
  ⟨fun h => ⟨h.values, h.calls, h.bounded⟩,
    fun h => ⟨h.values, h.calls, h.bounded, fun _ hx => absurd hx List.not_mem_nil⟩⟩

theorem call_of_suspension {w : World V} {k : Holding V} {x : QueueId × CallId × V}
    (hx : w.suspension k = some x) : k.call? = some x.2.1 := by
  cases k with
  | detached name c h a =>
    obtain ⟨q, -, hx⟩ := Option.bind_eq_some_iff.1 hx
    obtain ⟨p, -, hx⟩ := Option.bind_eq_some_iff.1 hx
    rw [← Option.some.inj hx]
    rfl
  | closing i c v =>
    obtain ⟨v, -, rfl⟩ := Option.map_eq_some_iff.1 hx
    rfl
  | _ => cases hx

theorem suspension_congr {w w' : World V} {hs : List (Holding V)}
    (hq : ∀ name ∈ hs.filterMap Holding.queue?,
      (w'.queues.get? name).map (·.id) = (w.queues.get? name).map (·.id))
    (hn : ∀ a ∈ (w.census hs).loose, w'.memory.nodes.get? a = w.memory.nodes.get? a) :
    hs.filterMap w'.suspension = hs.filterMap w.suspension := by
  apply List.filterMap_congr
  intro k hk
  cases k with
  | detached name c h a =>
    have hid := hq name (List.mem_filterMap.2 ⟨_, hk, rfl⟩)
    have hcell := hn a (List.mem_map.2 ⟨(h, a), List.mem_filterMap.2 ⟨_, hk, rfl⟩, rfl⟩)
    simp only [suspension, Nodes.value?, hcell]
    cases hw : w.queues.get? name <;> cases hw' : w'.queues.get? name <;> simp_all
  | _ => rfl

/-- A change at an address where no attempt waits to claim a value. -/
theorem suspension_congr_of_ne {w w' : World V} {hs : List (Holding V)} {a : Address}
    (hq : ∀ name ∈ hs.filterMap Holding.queue?,
      (w'.queues.get? name).map (·.id) = (w.queues.get? name).map (·.id))
    (ha : a ∉ (w.census hs).loose)
    (hn : ∀ b, b ≠ a → w'.memory.nodes.get? b = w.memory.nodes.get? b) :
    hs.filterMap w'.suspension = hs.filterMap w.suspension := by
  apply suspension_congr hq
  intro b hb
  apply hn
  rintro rfl
  exact ha hb

theorem ids_insert {w : World V} {name : Name} {q : Queue} (hq : w.queues.get? name = some q)
    (q' : Queue) (hid : q'.id = q.id) (name₁ : Name) :
    ((w.queues.insert name q').get? name₁).map (·.id) = (w.queues.get? name₁).map (·.id) := by
  rw [Table.get?_insert]
  split
  · rename_i hname
    rw [hname, hq, Option.map_some, Option.map_some, hid]
  · rfl

end World

theorem World.matched_empty : ({} : World V).Matched [] :=
  ⟨.refl _, List.nodup_nil, fun _ hc => absurd hc List.not_mem_nil⟩

namespace World.Settled
variable {w w' : World V} {hs hs' : List (Holding V)} {lost : List (QueueId × CallId × V)}
  {name : Name} {q q' : Queue} {nodes : Nodes (Payload V)} {h₀ : Hazard} {c : CallId}
  {p : Payload V}

theorem same (h : w.Settled hs lost) (hremovals : w'.removals = w.removals)
    (hreceipts : w'.receipts = w.receipts) (hcalls : w'.returnedCalls = w.returnedCalls)
    (hnext : w'.nextCall = w.nextCall)
    (hsusp : (hs'.filterMap w'.suspension).Perm (hs.filterMap w.suspension))
    (hopen : (hs'.filterMap Holding.call?).Perm (hs.filterMap Holding.call?)) :
    w'.Settled hs' lost := by
  refine ⟨?_, ?_, ?_, ?_⟩
  · rw [hremovals, hreceipts]
    exact h.values.trans ((hsusp.symm.append_left _).append_left _)
  · rw [hcalls]
    exact (hopen.symm.append_left _).nodup_iff.1 h.calls
  · intro d hd
    rw [hcalls] at hd
    rw [hnext]
    exact h.bounded d ((hopen.append_left _).mem_iff.1 hd)
  · intro x hx
    rw [hcalls, hnext]
    exact ⟨(h.ended x hx).1, fun hmem => (h.ended x hx).2 ((hopen.append_left _).mem_iff.1 hmem)⟩

theorem begin (h : w.Settled hs lost) (name : Name) :
    World.Settled { w with nextCall := w.nextCall + 1 } (.call name w.nextCall :: hs) lost := by
  refine ⟨h.values, ?_, ?_, ?_⟩
  · refine List.perm_middle.nodup_iff.2 (List.nodup_cons.2 ⟨fun hmem => ?_, h.calls⟩)
    exact Nat.lt_irrefl _ (h.bounded _ hmem)
  · intro d hd
    rcases List.mem_cons.1 (List.perm_middle.mem_iff.1 hd) with rfl | hd
    · exact Nat.lt_succ_self _
    · exact Nat.lt_succ_of_lt (h.bounded d hd)
  · intro x hx
    obtain ⟨hlt, hnot⟩ := h.ended x hx
    refine ⟨Nat.lt_succ_of_lt hlt, fun hmem => ?_⟩
    rcases List.mem_cons.1 (List.perm_middle.mem_iff.1 hmem) with heq | hmem
    · exact absurd hlt (heq ▸ Nat.lt_irrefl _)
    · exact hnot hmem

theorem claimFront (h : w.Settled (.hazard h₀ :: .call name c :: hs) lost)
    (hvalid : (w.census (.hazard h₀ :: .call name c :: hs)).Valid)
    (hq : w.queues.get? name = some q)
    (hround : q.dequeueRound w.memory.nodes = .claimed p q' nodes) :
    World.Settled (((w.setQueue name q').setNodes nodes).emit
      (.removed q.id c (q.head.getD 0) p.value))
        (.hazard h₀ :: .closing q'.id c (some p.value) :: hs) lost := by
  obtain ⟨b, n, hb, -, -, -, rfl, rfl⟩ := Queue.dequeueRound_claimed hround
  have hrest : hs.filterMap (World.suspension (((w.setQueue name
      { q with removed := q.removed + 1 }).setNodes (w.memory.nodes.insert b
        { n with slot := .vacant })).emit (.removed q.id c (q.head.getD 0) p.value))) =
      hs.filterMap w.suspension :=
    World.suspension_congr_of_ne
      (fun name₁ _ => World.ids_insert hq { q with removed := q.removed + 1 } rfl name₁)
      (hvalid.not_mem_loose (World.head_mem_linked hvalid hq hb))
      fun _ hne => Table.get?_insert_of_ne hne
  refine ⟨?_, h.calls, h.bounded, h.ended⟩
  refine (h.values.cons (q.id, c, p.value)).trans (List.perm_middle.symm.trans ?_)
  apply List.Perm.append_left _
  refine List.perm_middle.symm.trans (List.Perm.append_left _ ?_)
  exact (List.Perm.of_eq hrest.symm).cons _

/-- From here on the attempt holds what the unlinked node has. -/
theorem unlink {a : Address} (h : w.Settled (.hazard h₀ :: .call name c :: hs) lost)
    (hq : w.queues.get? name = some q)
    (hround : q.dequeueRound w.memory.nodes = .unlinked a q') :
    World.Settled ((w.setQueue name q').noteUnlinked q.id c a)
      (.condemned ⟨a, .boxed⟩ :: .detached name c h₀ a :: hs) lost := by
  obtain ⟨n, next, hhead, -, hn, -, rfl⟩ := Queue.dequeueRound_unlinked hround
  have hself (history : List (Event V)) :
      World.suspension { w.setQueue name { q with head := some next } with history }
        (.detached name c h₀ a) = n.slot.value?.map fun p => (q.id, c, p.value) := by
    have hget : (w.queues.insert name { q with head := some next }).get? name =
        some { q with head := some next } := Table.get?_insert_self ..
    simp only [World.suspension, World.setQueue, hget, Nodes.value?, hn, Option.bind_eq_bind,
      Option.bind_some]
    cases n.slot.value? <;> rfl
  have hrest (history : List (Event V)) : hs.filterMap (World.suspension
      { w.setQueue name { q with head := some next } with history }) =
        hs.filterMap w.suspension :=
    World.suspension_congr (fun name₁ _ =>
      World.ids_insert hq { q with head := some next } rfl name₁) fun _ _ => rfl
  rw [World.noteUnlinked_eq]
  change World.Settled { w.setQueue name { q with head := some next } with
    history := (((w.memory.nodes.get? a).bind fun n => n.slot.value?).toList.map fun p =>
      Event.removed q.id c a p.value) ++ w.history } _ _
  rw [hn, Option.bind_some]
  refine ⟨?_, ?_, ?_, ?_⟩
  · rw [List.filterMap_cons, List.filterMap_cons, hself, hrest]
    cases hv : n.slot.value? with
    | none => exact h.values
    | some p =>
      refine (h.values.cons (q.id, c, p.value)).trans (List.perm_middle.symm.trans ?_)
      exact List.Perm.append_left _ List.perm_middle.symm
  · cases n.slot.value? <;> exact h.calls
  · cases n.slot.value? <;> exact h.bounded
  · cases n.slot.value? <;> exact h.ended

theorem claimDetached {a : Address} (h : w.Settled (.detached name c h₀ a :: hs) lost)
    (hvalid : (w.census (.detached name c h₀ a :: hs)).Valid)
    (hq : w.queues.get? name = some q)
    (hclaim : q.claim w.memory.nodes a = .taken p q' nodes) :
    World.Settled ((w.setQueue name q').setNodes nodes)
      (.hazard h₀ :: .closing q'.id c (some p.value) :: hs) lost := by
  obtain ⟨n, hn, hv, rfl, rfl⟩ := Queue.claim_taken hclaim
  have hself : w.suspension (.detached name c h₀ a) = some (q.id, c, p.value) := by
    simp [World.suspension, Nodes.value?, hq, hn, hv]
  have hnodup := (List.nodup_append.1 hvalid.spaced.apart).2.1
  have hrest : hs.filterMap (World.suspension ((w.setQueue name
      { q with removed := q.removed + 1 }).setNodes (w.memory.nodes.insert a
        { n with slot := .vacant }))) = hs.filterMap w.suspension :=
    World.suspension_congr_of_ne
      (fun name₁ _ => World.ids_insert hq { q with removed := q.removed + 1 } rfl name₁)
      (List.nodup_cons.1 hnodup).1 fun _ hne => Table.get?_insert_of_ne hne
  refine h.same rfl rfl rfl rfl (.of_eq ?_) (.refl _)
  rw [List.filterMap_cons, List.filterMap_cons, List.filterMap_cons, hself, hrest]
  rfl

/-- An attempt that breaks off loses what it has removed. -/
theorem forfeit {k : Holding V} (h : w.Settled (k :: hs) lost) (ks : List (Holding V))
    (hsusp : ks.filterMap w.suspension = []) (hopen : ks.filterMap Holding.call? = []) :
    w.Settled (ks ++ hs) ((w.suspension k).toList ++ lost) := by
  have hcalls : (w.returnedCalls ++ (ks ++ hs).filterMap Holding.call?).Sublist
      (w.returnedCalls ++ (k :: hs).filterMap Holding.call?) := by
    rw [List.filterMap_append, hopen, List.nil_append]
    exact ((List.sublist_cons_self k hs).filterMap _).append_left _
  refine ⟨?_, hcalls.nodup h.calls, fun d hd => h.bounded d (hcalls.subset hd), fun x hx => ?_⟩
  · have hvalues := h.values
    rw [List.filterMap_append, hsusp, List.nil_append]
    cases hk : w.suspension k with
    | none =>
      rw [List.filterMap_cons_none hk] at hvalues
      exact hvalues
    | some x =>
      rw [List.filterMap_cons_some hk] at hvalues
      refine hvalues.trans ((List.Perm.append_left _ List.perm_middle).trans ?_)
      exact List.perm_middle
  · rcases List.mem_append.1 hx with hx | hx
    · -- The number of the attempt was among the open ones, and only once.
      have hcall := call_of_suspension (Option.mem_toList.1 hx)
      have hall := h.calls
      rw [List.filterMap_cons_some hcall] at hall
      obtain ⟨hnot, -⟩ := List.nodup_cons.1 (List.perm_middle.nodup_iff.1 hall)
      refine ⟨h.bounded _ ?_, ?_⟩
      · rw [List.filterMap_cons_some hcall]
        exact List.mem_append_right _ (List.mem_cons_self ..)
      · rwa [List.filterMap_append, hopen, List.nil_append]
    · exact ⟨(h.ended x hx).1, fun hmem => (h.ended x hx).2 (hcalls.subset hmem)⟩

end World.Settled

/-- Only a panic loses a value. -/
theorem Effect.settled {lossy : Prop} {g : Registry} {w w' : World V} {hs hs' : List (Holding V)}
    {lost : List (QueueId × CallId × V)} (e : Effect lossy g w hs w' hs') (hsound : w.Sound hs)
    (h : w.Settled hs lost) :
    ∃ more, w'.Settled hs' (more ++ lost) ∧ (¬ lossy → more = []) := by
  have hkeep {w' : World V} {hs' : List (Holding V)} (h' : w'.Settled hs' lost) :
      ∃ more, w'.Settled hs' (more ++ lost) ∧ (¬ lossy → more = []) :=
    ⟨[], h', fun _ => rfl⟩
  cases e with
  | reorder hp => exact hkeep (h.same rfl rfl rfl rfl (hp.symm.filterMap _) (hp.symm.filterMap _))
  | lose hl => exact ⟨_, h.forfeit [] rfl rfl, fun hn => absurd hl hn⟩
  | @giveUp name c h₀ a hs hl =>
    exact ⟨_, h.forfeit [.hazard h₀] rfl rfl, fun hn => absurd hl hn⟩
  | fault hk hlacks => exact absurd hlacks (hsound.not_lacks _ hk)
  | note e he =>
    cases e <;> first
      | exact hkeep ⟨h.values, h.calls, h.bounded, h.ended⟩
      | simp [Event.isVisible] at he
  | createQueue name strategy hname =>
    refine hkeep (h.same rfl rfl rfl rfl (.of_eq (World.suspension_congr_of_ne ?_
      (fun hmem => hsound.census.ne_fresh_of_loose hmem rfl)
      fun _ hne => Table.get?_insert_of_ne hne)) (.refl _))
    intro name₁ h₁
    have hlive := hsound.live name₁ h₁
    refine congrArg _ (Table.get?_insert_of_ne ?_)
    rintro rfl
    simp [hname] at hlive
  | scan rs ds ls t s =>
    refine hkeep (h.same rfl rfl rfl rfl (.of_eq ?_) (.of_eq ?_))
    · exact Holding.filterMap_scan _ (fun _ => rfl) (fun _ => rfl) rs ds ls _
    · exact Holding.filterMap_scan _ (fun _ => rfl) (fun _ => rfl) rs ds ls _
  | abandon b =>
    refine hkeep (h.same rfl rfl rfl rfl (.of_eq ?_) (.of_eq ?_))
    · exact (Holding.filterMap_map_append .unbagged _ (fun _ => rfl) _ _).symm
    · exact (Holding.filterMap_map_append .unbagged _ (fun _ => rfl) _ _).symm
  | allocate p =>
    exact hkeep (h.same rfl rfl rfl rfl (.of_eq (World.suspension_congr_of_ne (fun _ _ => rfl)
      (fun hmem => hsound.census.ne_fresh_of_loose hmem rfl)
      fun _ hne => Table.get?_insert_of_ne hne)) (.refl _))
  | @link h₀ a p hs name q q' nodes hq hround =>
    obtain ⟨t, last, ht, hlast, hnext, rfl, rfl⟩ := Queue.enqueueRound_linked hround
    exact hkeep (h.same rfl rfl rfl rfl (.of_eq (World.suspension_congr_of_ne
      (fun name₁ _ => World.ids_insert hq { q with tail := some a } rfl name₁)
      (hsound.census.not_mem_loose (World.tail_mem_linked hsound.census hq ht))
      fun _ hne => Table.get?_insert_of_ne hne)) (.refl _))
  | count =>
    refine hkeep (h.same rfl rfl rfl rfl (.of_eq (World.suspension_congr (fun name₁ _ => ?_)
      fun b hb => rfl)) (.refl _))
    refine (congrArg _ (Table.get?_modify ..)).trans ?_
    split
    · rw [Option.map_map]
      rfl
    · rfl
  | setWaiter name q waiter hq =>
    exact hkeep (h.same rfl rfl rfl rfl (.of_eq (World.suspension_congr
      (fun name₁ _ => World.ids_insert hq { q with waiter } rfl name₁) fun b hb => rfl)) (.refl _))
  | help name q t next last hq ht hlast hnext =>
    simp [World.tail_next hsound.census hq ht hlast] at hnext
  | begin name => exact hkeep (h.begin name)
  | claimFront name q q' p nodes hq hround => exact hkeep (h.claimFront hsound.census hq hround)
  | unlink name q q' a hq hround => exact hkeep (h.unlink hq hround)
  | claimDetached name q q' p nodes hq hclaim =>
    exact hkeep (h.claimDetached hsound.census hq hclaim)
  | @missDetached h₀ c a hs name q hq hclaim =>
    obtain ⟨n, hn, hv⟩ := Queue.claim_refused hclaim
    have hself : w.suspension (.detached name c h₀ a) = none := by
      simp [World.suspension, Nodes.value?, hq, hn, hv]
    refine hkeep (h.same rfl rfl rfl rfl (.of_eq ?_) (.refl _))
    rw [List.filterMap_cons, List.filterMap_cons, List.filterMap_cons, hself]
    rfl
  | @finish i c v hs =>
    refine hkeep ⟨?_, ?_, ?_, ?_⟩
    · cases v with
      | none => exact h.values
      | some v => exact h.values.trans (List.Perm.append_left _ List.perm_middle)
    · exact List.perm_middle.nodup_iff.1 h.calls
    · intro d hd
      exact h.bounded d (List.perm_middle.mem_iff.2 hd)
    · intro x hx
      exact ⟨(h.ended x hx).1, fun hmem => (h.ended x hx).2 (List.perm_middle.mem_iff.2 hmem)⟩
  | @destroyNode r hs n ho hn =>
    refine hkeep (h.same rfl rfl rfl rfl (.of_eq (World.suspension_congr_of_ne (fun _ _ => rfl)
      (fun hmem => ?_) fun _ hne => Table.get?_erase_of_ne hne)) (.refl _))
    obtain ⟨x, hx, hxr⟩ := List.mem_map.1 hmem
    exact (hsound.guarded x hx).2 (hxr ▸ List.mem_cons_self ..)
  | @free i a hs n hn =>
    have hstart : some a ∈ (w.census (.cut i (some a) :: hs)).starts :=
      List.mem_append_right _ (List.mem_cons_self ..)
    exact hkeep (h.same rfl rfl rfl rfl (.of_eq (World.suspension_congr_of_ne (fun _ _ => rfl)
      (hsound.census.not_mem_loose (hsound.census.start_mem_linked hstart))
      fun _ hne => Table.get?_erase_of_ne hne)) (.refl _))
  | configure | storeCells | setThread | createRecord | condemn | spare | declare | settle
  | acquire | publish | republish | giveName | takeName | release | enter | depart | findEmpty
  | destroyObject | freed | vacant | drop | discard =>
    exact hkeep ⟨h.values, h.calls, h.bounded, h.ended⟩

theorem Effect.matched {g : Registry} {w w' : World V} {hs hs' : List (Holding V)}
    (e : Effect False g w hs w' hs') (hsound : w.Sound hs) (h : w.Matched hs) :
    w'.Matched hs' := by
  obtain ⟨more, hsettled, hnone⟩ := e.settled hsound (World.settled_nil.2 h)
  obtain rfl := hnone not_false
  exact World.settled_nil.1 hsettled

namespace Run

def interruption (m : Run V) : Frame V → Option (QueueId × CallId × V)
  | .dequeue { queue, stage := .unlinked c _ a, .. } => do
    let q ← m.world.queues.get? queue
    let p ← m.world.memory.nodes.value? a
    some (q.id, c, p.value)
  | _ => none

def interruptions (m : Run V) : List (QueueId × CallId × V) := m.stack.filterMap m.interruption

theorem suspension_holdings (m : Run V) (f : Frame V) :
    f.holdings.filterMap m.world.suspension = (m.interruption f).toList := by
  cases f with
  | enqueue e => obtain ⟨_, _ | _, _, _, _⟩ := e <;> rfl
  | dequeue d =>
    obtain ⟨queue, _ | _ | ⟨c, h, a⟩, _⟩ := d
    · rfl
    · rfl
    · exact List.filterMap_cons
  | reclaim rest => exact Holding.filterMap_map_eq_nil .doomed _ (fun _ => rfl) rest
  | abandonRest bag => exact Holding.filterMap_map_eq_nil .unbagged _ (fun _ => rfl) bag.records
  | script | acting | answering | dropChain | leave | finishExit => rfl

theorem interruptions_eq (m : Run V) :
    m.interruptions = m.holdings.filterMap m.world.suspension :=
  (filterMap_holdings m.suspension_holdings m).symm

theorem interrupted_calls (m : Run V) :
    (m.interruptions.map (·.2.1)).Sublist (m.holdings.filterMap Holding.call?) := by
  rw [interruptions_eq]
  induction m.holdings with
  | nil => exact .slnil
  | cons k hs ih =>
    rw [List.filterMap_cons, List.filterMap_cons]
    cases hk : m.world.suspension k with
    | none =>
      apply ih.trans
      split
      · exact .refl _
      · exact List.sublist_cons_self _ _
    | some x =>
      rw [World.call_of_suspension hk]
      exact ih.cons_cons x.2.1

theorem Reaches.queues {m : Run V} (h : Reaches IsCalm idle m) :
    m.world.Ordered ∧ m.world.Emptied m.holdings ∧ m.world.Matched m.holdings := by
  have hall : m.world.Sound m.holdings ∧ m.world.Ordered ∧ m.world.Emptied m.holdings ∧
      m.world.Matched m.holdings := by
    refine @of_effects V
      (fun w hs => w.Sound hs ∧ w.Ordered ∧ w.Emptied hs ∧ w.Matched hs) ?_ ?_ m h
    · exact ⟨World.sound_empty, World.ordered_empty, World.emptied_empty, World.matched_empty⟩
    · intro g w hs w' hs' e ⟨hsound, hordered, hemptied, hmatched⟩
      exact ⟨e.sound hsound, e.ordered hsound hordered, e.emptied hsound hordered hemptied,
        e.matched hsound hmatched⟩
  exact hall.2

end Run
end Reclaim
