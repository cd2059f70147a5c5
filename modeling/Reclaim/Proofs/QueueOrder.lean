import Reclaim.Proofs.Soundness

set_option autoImplicit false

namespace Reclaim
variable {V : Type}

namespace Event

def linked? (i : QueueId) : Event V → Option V
  | linked j _ v => if j = i then some v else none
  | _ => none

def removed? (i : QueueId) : Event V → Option V
  | removed j _ _ v => if j = i then some v else none
  | _ => none

end Event

def Holding.emptied? : Holding V → Option QueueId
  | closing i _ none => some i
  | _ => none

theorem Holding.not_emptied {hs : List (Holding V)} (h : ∀ k ∈ hs, k.isLasting = true)
    (i : QueueId) : i ∉ hs.filterMap emptied? := by
  intro hi
  obtain ⟨k, hk, hki⟩ := List.mem_filterMap.1 hi
  have hlasting := h k hk
  cases k with
  | closing => simp [isLasting] at hlasting
  | _ => cases hki

def linkedIn (i : QueueId) (history : List (Event V)) : List V :=
  (history.filterMap (Event.linked? i)).reverse

def removedIn (i : QueueId) (history : List (Event V)) : List V :=
  (history.filterMap (Event.removed? i)).reverse

theorem linkedIn_append (i : QueueId) (l l' : List (Event V)) :
    linkedIn i (l ++ l') = linkedIn i l' ++ linkedIn i l := by
  simp [linkedIn]

theorem removedIn_append (i : QueueId) (l l' : List (Event V)) :
    removedIn i (l ++ l') = removedIn i l' ++ removedIn i l := by
  simp [removedIn]

theorem linkedIn_linked (i j : QueueId) (a : Address) (v : V) (l : List (Event V)) :
    linkedIn i (.linked j a v :: l) = linkedIn i l ++ if j = i then [v] else [] := by
  rw [linkedIn, List.filterMap_cons, Event.linked?]
  by_cases h : j = i <;> simp [h, linkedIn]

theorem removedIn_removed (i j : QueueId) (c : CallId) (a : Address) (v : V)
    (l : List (Event V)) :
    removedIn i (.removed j c a v :: l) = removedIn i l ++ if j = i then [v] else [] := by
  rw [removedIn, List.filterMap_cons, Event.removed?]
  by_cases h : j = i <;> simp [h, removedIn]

/-- A node takes the value along that was not claimed before. -/
theorem removedIn_unlinked (i j : QueueId) (c : CallId) (a : Address) (p : Option (Payload V))
    (l : List (Event V)) :
    removedIn i ((p.toList.map fun p => .removed j c a p.value) ++ l) =
      removedIn i l ++ if j = i then p.toList.map (·.value) else [] := by
  cases p with
  | none => simp
  | some p => exact removedIn_removed i j c a p.value l

theorem linkedIn_unlinked (i j : QueueId) (c : CallId) (a : Address) (p : Option (Payload V))
    (l : List (Event V)) :
    linkedIn i ((p.toList.map fun p => .removed j c a p.value) ++ l) = linkedIn i l := by
  cases p <;> rfl

/-- Nothing about queues has happened between the histories. -/
def SameOrder (l l' : List (Event V)) : Prop :=
  ∀ i, linkedIn i l' = linkedIn i l ∧ removedIn i l' = removedIn i l

theorem sameOrder_note {e : Event V} (h : e.isVisible = true) (l : List (Event V)) :
    SameOrder l (e :: l) := by
  cases e <;> first | exact fun _ => ⟨rfl, rfl⟩ | simp [Event.isVisible] at h

namespace World

def queued (w : World V) (q : Queue) : List V :=
  (w.memory.nodes.waiting q.head).map (·.value)

structure Ordered (w : World V) : Prop where
  unique : ∀ (name name' : Name) (q q' : Queue), w.queues.get? name = some q →
    w.queues.get? name' = some q' → q.id = q'.id → name = name'
  bounded : ∀ (name : Name) (q : Queue), w.queues.get? name = some q → q.id < w.nextQueue
  fresh : ∀ i, w.nextQueue ≤ i → linkedIn i w.history = [] ∧ removedIn i w.history = []
  order : ∀ (name : Name) (q : Queue), w.queues.get? name = some q →
    linkedIn q.id w.history = removedIn q.id w.history ++ w.queued q

namespace Ordered
variable {w w' : World V} {name : Name} {q q' : Queue}

theorem frame (h : w.Ordered) (hnext : w'.nextQueue = w.nextQueue)
    (hhistory : SameOrder w.history w'.history)
    (hqueues : ∀ name q', w'.queues.get? name = some q' → ∃ q, w.queues.get? name = some q ∧
      q'.id = q.id ∧ w'.queued q' = w.queued q) : w'.Ordered where
  unique name₁ name₂ q₁ q₂ h₁ h₂ hid := by
    obtain ⟨p₁, hp₁, hid₁, -⟩ := hqueues name₁ q₁ h₁
    obtain ⟨p₂, hp₂, hid₂, -⟩ := hqueues name₂ q₂ h₂
    exact h.unique name₁ name₂ p₁ p₂ hp₁ hp₂ (hid₁ ▸ hid₂ ▸ hid)
  bounded name q hq := by
    obtain ⟨p, hp, hid, -⟩ := hqueues name q hq
    rw [hid, hnext]
    exact h.bounded name p hp
  fresh i hi := by
    rw [(hhistory i).1, (hhistory i).2]
    exact h.fresh i (hnext ▸ hi)
  order name q hq := by
    obtain ⟨p, hp, hid, hqueued⟩ := hqueues name q hq
    rw [(hhistory q.id).1, (hhistory q.id).2, hid, hqueued]
    exact h.order name p hp

/-- One queue changes or is new, and what happens to it is recorded. -/
theorem put (h : w.Ordered) (hqueues : w'.queues = w.queues.insert name q')
    (hnext : w.nextQueue ≤ w'.nextQueue) (hid : q'.id < w'.nextQueue)
    (hhistory : ∀ i, i ≠ q'.id → linkedIn i w'.history = linkedIn i w.history ∧
      removedIn i w'.history = removedIn i w.history)
    (hothers : ∀ name₁ q₁, name₁ ≠ name → w.queues.get? name₁ = some q₁ →
      q₁.id ≠ q'.id ∧ w'.queued q₁ = w.queued q₁)
    (horder : linkedIn q'.id w'.history = removedIn q'.id w'.history ++ w'.queued q') :
    w'.Ordered := by
  have hget (name₁ : Name) (q₁ : Queue) (h₁ : w'.queues.get? name₁ = some q₁) :
      (name₁ = name ∧ q₁ = q') ∨ (name₁ ≠ name ∧ w.queues.get? name₁ = some q₁) := by
    rw [hqueues, Table.get?_insert] at h₁
    by_cases hname : name₁ = name
    · rw [if_pos hname] at h₁
      exact .inl ⟨hname, (Option.some.inj h₁).symm⟩
    · rw [if_neg hname] at h₁
      exact .inr ⟨hname, h₁⟩
  refine ⟨?_, ?_, ?_, ?_⟩
  · intro name₁ name₂ q₁ q₂ h₁ h₂ he
    rcases hget name₁ q₁ h₁ with ⟨rfl, rfl⟩ | ⟨hne₁, h₁⟩ <;>
      rcases hget name₂ q₂ h₂ with ⟨rfl, rfl⟩ | ⟨hne₂, h₂⟩
    · rfl
    · exact absurd he.symm (hothers _ _ hne₂ h₂).1
    · exact absurd he (hothers _ _ hne₁ h₁).1
    · exact h.unique _ _ _ _ h₁ h₂ he
  · intro name₁ q₁ h₁
    rcases hget name₁ q₁ h₁ with ⟨rfl, rfl⟩ | ⟨-, h₁⟩
    · exact hid
    · exact Nat.lt_of_lt_of_le (h.bounded _ _ h₁) hnext
  · intro i hi
    have hne : i ≠ q'.id := Nat.ne_of_gt (Nat.lt_of_lt_of_le hid hi)
    rw [(hhistory i hne).1, (hhistory i hne).2]
    exact h.fresh i (Nat.le_trans hnext hi)
  · intro name₁ q₁ h₁
    rcases hget name₁ q₁ h₁ with ⟨rfl, rfl⟩ | ⟨hne, h₁⟩
    · exact horder
    · obtain ⟨hids, hqueued⟩ := hothers name₁ q₁ hne h₁
      rw [(hhistory _ hids).1, (hhistory _ hids).2, hqueued]
      exact h.order name₁ q₁ h₁

theorem id_ne (h : w.Ordered) (hq : w.queues.get? name = some q) {name₁ : Name} {q₁ : Queue}
    (hne : name₁ ≠ name) (hq₁ : w.queues.get? name₁ = some q₁) : q₁.id ≠ q.id :=
  fun he => hne (h.unique _ _ _ _ hq₁ hq he)

end Ordered
end World

theorem World.ordered_empty : ({} : World V).Ordered := by
  refine ⟨?_, ?_, fun _ _ => ⟨rfl, rfl⟩, ?_⟩ <;> simp [Table.get?_empty]

theorem World.queued_congr {w w' : World V} {hs : List (Holding V)} {name : Name} {q : Queue}
    (h : (w.census hs).Valid) (hq : w.queues.get? name = some q)
    (hsame : ∀ a ∈ w.memory.nodes.trail q.head,
      w'.memory.nodes.get? a = w.memory.nodes.get? a) : w'.queued q = w.queued q := by
  rw [queued, queued, (World.trail_path h hq).waiting_congr hsame]

theorem World.exists_of_insert {w : World V} {name : Name} {q q' : Queue}
    (hq : w.queues.get? name = some q) (hid : q'.id = q.id) (hhead : q'.head = q.head)
    {name₁ : Name} {q₁ : Queue} (h₁ : (w.queues.insert name q').get? name₁ = some q₁) :
    ∃ p, w.queues.get? name₁ = some p ∧ q₁.id = p.id ∧ q₁.head = p.head := by
  rw [Table.get?_insert] at h₁
  split at h₁
  · rename_i hname
    obtain rfl := Option.some.inj h₁
    exact ⟨q, hname ▸ hq, hid, hhead⟩
  · exact ⟨q₁, h₁, rfl, rfl⟩

/-- A change of a node in the chain of one queue is not seen by the others. -/
theorem World.queued_insert {w w' : World V} {hs : List (Holding V)} {name name₁ : Name}
    {q q₁ : Queue} (h : (w.census hs).Valid) (hq : w.queues.get? name = some q)
    (h₁ : w.queues.get? name₁ = some q₁) (hne : name₁ ≠ name) {a : Address}
    (ha : a ∈ w.memory.nodes.trail q.head) {n : Node (Payload V)}
    (hnodes : w'.memory.nodes = w.memory.nodes.insert a n) : w'.queued q₁ = w.queued q₁ := by
  apply World.queued_congr h h₁
  intro b hb
  rw [hnodes]
  apply Table.get?_insert_of_ne
  rintro rfl
  exact World.trail_disjoint h hq h₁ hne ha hb

namespace World.Ordered
variable {w : World V} {hs : List (Holding V)} {name : Name} {q q' : Queue}
  {nodes : Nodes (Payload V)}

theorem createQueue (h : w.Ordered) (hvalid : (w.census hs).Valid) (name : Name)
    (strategy : WaitStrategy) :
    (World.emit { w with
      memory := (w.memory.allocateNode {}).2
      queues := w.queues.insert name (Queue.create w.nextQueue w.memory.fresh strategy)
      nextQueue := w.nextQueue + 1 } (.nodeAllocated w.memory.fresh)).Ordered := by
  have hempty : Nodes.waiting (w.memory.nodes.insert w.memory.fresh {})
      (some w.memory.fresh) = [] := by
    have hself : (w.memory.nodes.insert w.memory.fresh {}).get? w.memory.fresh = some {} :=
      Table.get?_insert_self ..
    rw [(Nodes.Path.cons hself .nil).waiting_cons hself, Nodes.Path.waiting_none]
    rfl
  have hfresh := h.fresh w.nextQueue (Nat.le_refl _)
  refine h.put rfl (Nat.le_succ _) (Nat.lt_succ_self _) (fun _ _ => ⟨rfl, rfl⟩)
    (fun name₁ q₁ _ h₁ => ⟨Nat.ne_of_lt (h.bounded _ _ h₁), ?_⟩) ?_
  · apply World.queued_congr hvalid h₁
    intro a ha
    have hlinked := World.trail_subset_linked h₁ hs ha
    exact Table.get?_insert_of_ne (hvalid.ne_fresh_of_linked hlinked)
  · change linkedIn w.nextQueue w.history = removedIn w.nextQueue w.history ++
      (Nodes.waiting (w.memory.nodes.insert w.memory.fresh {}) (some w.memory.fresh)).map _
    rw [hfresh.1, hfresh.2, hempty]
    rfl

theorem link {a : Address} {p : Payload V} (h : w.Ordered) (hvalid : (w.census hs).Valid)
    (hnode : .newNode a p ∈ hs) (hq : w.queues.get? name = some q)
    (hround : q.enqueueRound w.memory.nodes a = .linked q' nodes) :
    (((w.setQueue name q').setNodes nodes).emit (.linked q'.id a p.value)).Ordered := by
  obtain ⟨t, last, ht, hlast, hnext, rfl, rfl⟩ := Queue.enqueueRound_linked hround
  obtain ⟨l, t', ht', hpath⟩ := World.path_of_census hvalid hq
  obtain rfl := Option.some.inj (ht.symm.trans ht')
  have hnews : (a, p) ∈ (w.census hs).news := List.mem_filterMap.2 ⟨_, hnode, rfl⟩
  have ha : a ∉ l ++ [t] := fun hmem => by
    rw [← hpath.trail_eq] at hmem
    exact hvalid.not_mem_news (World.trail_subset_linked hq hs hmem) (List.mem_map_of_mem hnews)
  have hbound := h.bounded name q hq
  refine h.put rfl (Nat.le_refl _) hbound (fun i hi => ⟨?_, rfl⟩)
    (fun name₁ q₁ hne h₁ => ⟨h.id_ne hq hne h₁, ?_⟩) ?_
  · exact (linkedIn_linked i q.id a p.value w.history).trans
      (by rw [if_neg (Ne.symm hi), List.append_nil])
  · exact World.queued_insert hvalid hq h₁ hne (World.tail_mem_trail hvalid hq ht) rfl
  · have horder := h.order name q hq
    have hqueued := hpath.waiting_extend hlast ha (hvalid.new (a, p) hnews) rfl
    change linkedIn q.id (.linked q.id a p.value :: w.history) = removedIn q.id w.history ++
      (Nodes.waiting (w.memory.nodes.insert t { last with next := some a }) q.head).map _
    rw [linkedIn_linked, if_pos rfl, horder, hqueued, List.map_append, List.append_assoc]
    rfl

/-- The only value of the queue is claimed where it waits. -/
theorem claimFront {c : CallId} {p : Payload V} (h : w.Ordered) (hvalid : (w.census hs).Valid)
    (hq : w.queues.get? name = some q)
    (hround : q.dequeueRound w.memory.nodes = .claimed p q' nodes) :
    (((w.setQueue name q').setNodes nodes).emit
      (.removed q.id c (q.head.getD 0) p.value)).Ordered := by
  obtain ⟨b, n, hb, ht, hn, hv, rfl, rfl⟩ := Queue.dequeueRound_claimed hround
  have hnext := World.tail_next hvalid hq ht hn
  have hpath := World.trail_path hvalid hq
  rw [hb] at hpath
  have hold : w.memory.nodes.waiting q.head = [p] := by
    rw [hb, hpath.waiting_cons hn, hv, hnext, Nodes.Path.waiting_none]
    rfl
  have hnew : Nodes.waiting (w.memory.nodes.insert b { n with slot := .vacant }) q.head = [] := by
    have hself : (w.memory.nodes.insert b { n with slot := .vacant }).get? b =
        some { n with slot := .vacant } := Table.get?_insert_self ..
    rw [hb, (hpath.setSlot hn .vacant).waiting_cons hself, hnext, Nodes.Path.waiting_none]
    rfl
  have hbound := h.bounded name q hq
  refine h.put rfl (Nat.le_refl _) hbound (fun i hi => ⟨rfl, ?_⟩)
    (fun name₁ q₁ hne h₁ => ⟨h.id_ne hq hne h₁, ?_⟩) ?_
  · exact (removedIn_removed i q.id c _ p.value w.history).trans
      (by rw [if_neg (Ne.symm hi), List.append_nil])
  · exact World.queued_insert hvalid hq h₁ hne (World.head_mem_trail hvalid hq hb) rfl
  · have horder := h.order name q hq
    rw [World.queued, hold] at horder
    change linkedIn q.id w.history = removedIn q.id (.removed q.id c _ p.value :: w.history) ++
      (Nodes.waiting (w.memory.nodes.insert b { n with slot := .vacant }) q.head).map _
    rw [removedIn_removed, if_pos rfl, hnew, horder, List.map_nil, List.append_nil]
    rfl

/-- A node that leaves the chain takes its value along, if it still has one. -/
theorem unlink {a : Address} {c : CallId} (h : w.Ordered) (hvalid : (w.census hs).Valid)
    (hq : w.queues.get? name = some q)
    (hround : q.dequeueRound w.memory.nodes = .unlinked a q') :
    ((w.setQueue name q').noteUnlinked q.id c a).Ordered := by
  obtain ⟨n, next, hhead, -, hn, hnext, rfl⟩ := Queue.dequeueRound_unlinked hround
  have hpath := World.trail_path hvalid hq
  rw [hhead] at hpath
  have hold := hpath.waiting_cons hn
  rw [hnext] at hold
  have hbound := h.bounded name q hq
  rw [World.noteUnlinked_eq]
  change World.Ordered { w.setQueue name { q with head := some next } with
    history := (((w.memory.nodes.get? a).bind fun n => n.slot.value?).toList.map fun p =>
      Event.removed q.id c a p.value) ++ w.history }
  rw [hn, Option.bind_some]
  refine h.put rfl (Nat.le_refl _) hbound (fun i hi => ⟨linkedIn_unlinked .., ?_⟩)
    (fun name₁ q₁ hne h₁ => ⟨h.id_ne hq hne h₁, rfl⟩) ?_
  · exact (removedIn_unlinked i q.id c a _ _).trans
      (by rw [if_neg (Ne.symm hi), List.append_nil])
  · have horder := h.order name q hq
    rw [World.queued, hhead, hold, List.map_append, ← List.append_assoc] at horder
    refine (linkedIn_unlinked ..).trans (horder.trans ?_)
    change _ = removedIn q.id (_ ++ w.history) ++ _
    rw [removedIn_unlinked, if_pos rfl]
    rfl

end World.Ordered

namespace Effect
variable {lossy : Prop} {g : Registry} {w w' : World V} {hs hs' : List (Holding V)}

theorem ordered (e : Effect lossy g w hs w' hs') (hsound : w.Sound hs) (h : w.Ordered) :
    w'.Ordered := by
  have hcells {w' : World V} (hqueues : w'.queues = w.queues)
      (hnext : w'.nextQueue = w.nextQueue) (hhistory : SameOrder w.history w'.history)
      (hsame : ∀ a ∈ (w.census hs).linked, w'.memory.nodes.get? a = w.memory.nodes.get? a) :
      w'.Ordered := by
    refine h.frame hnext hhistory fun name q hq => ⟨q, hqueues ▸ hq, rfl, ?_⟩
    exact World.queued_congr hsound.census (hqueues ▸ hq) fun a ha =>
      hsame a (World.trail_subset_linked (hqueues ▸ hq) hs ha)
  have hqueue {w' : World V} {name : Name} {q q' : Queue} (hq : w.queues.get? name = some q)
      (hqueues : w'.queues = w.queues.insert name q') (hid : q'.id = q.id)
      (hhead : q'.head = q.head) (hnext : w'.nextQueue = w.nextQueue)
      (hhistory : SameOrder w.history w'.history)
      (hsame : ∀ a ∈ (w.census hs).linked, w'.memory.nodes.get? a = w.memory.nodes.get? a) :
      w'.Ordered := by
    apply h.frame hnext hhistory
    intro name₁ q₁ h₁
    obtain ⟨p, hp, hpid, hphead⟩ := World.exists_of_insert hq hid hhead (hqueues ▸ h₁)
    refine ⟨p, hp, hpid, ?_⟩
    rw [World.queued, hphead]
    exact World.queued_congr hsound.census hp fun a ha =>
      hsame a (World.trail_subset_linked hp hs ha)
  cases e with
  | note e he => exact hcells rfl rfl (sameOrder_note he _) fun _ _ => rfl
  | drop => exact hcells rfl rfl (sameOrder_note rfl _) fun _ _ => rfl
  | createQueue name strategy hname => exact h.createQueue hsound.census name strategy
  | allocate p =>
    exact hcells rfl rfl (fun _ => ⟨rfl, rfl⟩) fun a ha =>
      Table.get?_insert_of_ne (hsound.census.ne_fresh_of_linked ha)
  | link name q q' nodes hq hround =>
    exact h.link hsound.census (by simp) hq hround
  | count =>
    refine h.frame rfl (fun _ => ⟨rfl, rfl⟩) fun name₁ q₁ h₁ => ?_
    change (w.queues.modify _ Queue.noteInserted).get? name₁ = some q₁ at h₁
    rw [Table.get?_modify] at h₁
    split at h₁
    · obtain ⟨q, hq, rfl⟩ := Option.map_eq_some_iff.1 h₁
      exact ⟨q, hq, rfl, rfl⟩
    · exact ⟨q₁, h₁, rfl, rfl⟩
  | setWaiter name q waiter hq =>
    exact hqueue hq rfl rfl rfl rfl (fun _ => ⟨rfl, rfl⟩) fun _ _ => rfl
  | help name q t next last hq ht hlast hnext =>
    simp [World.tail_next hsound.census hq ht hlast] at hnext
  | claimFront name q q' p nodes hq hround => exact h.claimFront hsound.census hq hround
  | unlink name q q' a hq hround => exact h.unlink hsound.census hq hround
  | claimDetached name q q' p nodes hq hclaim =>
    obtain ⟨n, hn, -, rfl, rfl⟩ := Queue.claim_taken hclaim
    refine hqueue hq rfl rfl rfl rfl (fun _ => ⟨rfl, rfl⟩) fun b hb => ?_
    apply Table.get?_insert_of_ne
    rintro rfl
    exact hsound.census.not_mem_loose hb (List.mem_cons_self ..)
  | @destroyNode r _ n ho hn =>
    refine hcells rfl rfl (fun _ => ⟨rfl, rfl⟩) fun a ha => ?_
    apply Table.get?_erase_of_ne
    rintro rfl
    refine hsound.not_linked ?_ ha
    have hretired := doomed_address_mem hsound.account (List.mem_cons_self ..)
    exact List.mem_append_right _ (List.mem_append_right _ hretired)
  | @free i a hs n hn =>
    refine h.frame rfl (fun _ => ⟨rfl, rfl⟩) fun name q hq => ⟨q, hq, rfl, ?_⟩
    apply World.queued_congr hsound.census hq
    intro b hb
    apply Table.get?_erase_of_ne
    rintro rfl
    have hcut : some b ∈ (w.census (.cut i (some b) :: hs)).starts :=
      List.mem_append_right _ (List.mem_cons_self ..)
    exact World.trail_not_cut hsound.census hq (List.mem_cons_self ..) hb
      (hsound.census.start_mem_trail hcut)
  | discard name q hq =>
    refine h.frame rfl (fun _ => ⟨rfl, rfl⟩) fun name₁ q₁ h₁ => ⟨q₁, ?_, rfl, rfl⟩
    change (w.queues.erase name).get? name₁ = some q₁ at h₁
    rw [Table.get?_erase] at h₁
    split at h₁
    · cases h₁
    · exact h₁
  | reorder | lose | fault | configure | storeCells | setThread | createRecord | condemn | spare
  | declare | settle | scan | abandon | acquire | publish | republish | giveName | takeName
  | release | enter | depart | begin | findEmpty | missDetached | giveUp | finish | destroyObject
  | freed | vacant =>
    exact h.frame rfl (fun _ => ⟨rfl, rfl⟩) fun _ q hq => ⟨q, hq, rfl, rfl⟩

end Effect

def EmptyWhenNone : List (Event V) → Prop
  | [] => True
  | .returned i _ none :: l => linkedIn i l = removedIn i l ∧ EmptyWhenNone l
  | _ :: l => EmptyWhenNone l

theorem EmptyWhenNone.of_suffix {i : QueueId} {c : CallId} {l l' : List (Event V)}
    (h : EmptyWhenNone l') (hl : .returned i c none :: l <:+ l') :
    linkedIn i l = removedIn i l := by
  induction l' with
  | nil => simp at hl
  | cons e l' ih =>
    rcases List.suffix_cons_iff.1 hl with heq | hl
    · obtain ⟨rfl, rfl⟩ := List.cons.inj heq
      exact h.1
    · refine ih ?_ hl
      unfold EmptyWhenNone at h
      split at h
      · simp_all
      · simp_all
      · simp_all

structure World.Emptied (w : World V) (hs : List (Holding V)) : Prop where
  held : ∀ i ∈ hs.filterMap Holding.emptied?,
    linkedIn i w.history = removedIn i w.history
  past : EmptyWhenNone w.history

theorem World.emptied_empty : ({} : World V).Emptied [] :=
  ⟨fun _ hi => absurd hi List.not_mem_nil, trivial⟩

theorem Effect.emptied {lossy : Prop} {g : Registry} {w w' : World V} {hs hs' : List (Holding V)}
    (e : Effect lossy g w hs w' hs') (hsound : w.Sound hs) (hordered : w.Ordered)
    (h : w.Emptied hs) : w'.Emptied hs' := by
  have hless {hs' : List (Holding V)}
      (hsub : hs'.filterMap Holding.emptied? ⊆ hs.filterMap Holding.emptied?) : w.Emptied hs' :=
    ⟨fun i hi => h.held i (hsub hi), h.past⟩
  cases e with
  | reorder hp => exact hless (hp.symm.filterMap _).subset
  | lose => exact hless ((List.sublist_cons_self _ _).filterMap _).subset
  | fault _ _ hsub => exact hless (hsub.filterMap _).subset
  | note e he =>
    have hsame := sameOrder_note he w.history
    refine ⟨?_, ?_⟩
    · intro i hi
      exact (hsame i).1.trans ((h.held i hi).trans (hsame i).2.symm)
    · cases e <;> first | exact h.past | simp [Event.isVisible] at he
  | scan rs ds ls t s =>
    refine ⟨fun i hi => h.held i ?_, h.past⟩
    rwa [Holding.filterMap_scan _ (fun _ => rfl) (fun _ => rfl) rs ds ls] at hi
  | abandon b =>
    refine ⟨fun i hi => h.held i ?_, h.past⟩
    rwa [Holding.filterMap_map_append .unbagged _ fun _ => rfl]
  | link name q q' nodes hq hround hlasting =>
    exact ⟨fun i hi => absurd hi (Holding.not_emptied hlasting i), h.past⟩
  | claimFront name q q' p nodes hq hround hlasting =>
    exact ⟨fun i hi => absurd hi (Holding.not_emptied hlasting i), h.past⟩
  | findEmpty name q hq hround =>
    obtain ⟨b, n, hb, -, hn, hv, hnext⟩ := Queue.dequeueRound_empty hround
    refine ⟨fun i hi => ?_, h.past⟩
    rcases List.mem_cons.1 hi with rfl | hi
    -- The chain is the one node at the head, and its slot is empty.
    · have hpath := World.trail_path hsound.census hq
      rw [hb] at hpath
      have horder := hordered.order name q hq
      rw [World.queued, hb, hpath.waiting_cons hn, hv, hnext, Nodes.Path.waiting_none] at horder
      rw [horder]
      exact List.append_nil _
    · exact h.held i hi
  | unlink name q q' a hq hround htarget hlasting =>
    refine ⟨fun i hi => absurd hi (Holding.not_emptied hlasting i), ?_⟩
    rw [World.noteUnlinked_eq]
    cases (((w.setQueue name q').memory.nodes.get? a).bind fun n => n.slot.value?) <;>
      exact h.past
  | @finish i c v hs =>
    cases v with
    | none =>
      refine ⟨fun j hj => h.held j (List.mem_cons_of_mem _ hj), h.held i ?_, h.past⟩
      exact List.mem_cons_self ..
    | some v => exact ⟨h.held, h.past⟩
  | discard => exact ⟨fun i hi => absurd hi List.not_mem_nil, h.past⟩
  | configure | storeCells | setThread | createRecord | createQueue | condemn | spare | declare
  | settle | acquire | publish | republish | giveName | takeName | release | enter | depart
  | allocate | count | setWaiter | help | begin | claimDetached | missDetached | giveUp
  | destroyObject | destroyNode | free | freed | vacant | drop => exact ⟨h.held, h.past⟩

end Reclaim
