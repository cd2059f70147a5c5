import Reclaim.Proofs.VacatedSlots

set_option autoImplicit false

namespace Reclaim
variable {V : Type}

namespace Event

def deposit? : Event V → Option (Deposit V)
  | linked i a v => some ⟨i, a, v⟩
  | _ => none

def withdrawal? : Event V → Option (Deposit V)
  | removed i _ a v => some ⟨i, a, v⟩
  | _ => none

end Event

namespace World

def deposits (w : World V) : List (Deposit V) := w.history.filterMap Event.deposit?

def withdrawals (w : World V) : List (Deposit V) := w.history.filterMap Event.withdrawal?

/-- The nodes that are in a chain, and those that were freed while they were in one. -/
def placed (w : World V) (hs : List (Holding V)) : List (Member V) := w.members hs ++ w.freed

def incoming (hs : List (Holding V)) : List Address := (hs.filterMap Holding.newNode?).map (·.1)

def nodesAmong (w : World V) (l : List Address) : List Address := l.filter (· ∈ w.allocations)

structure Balanced (w : World V) (hs : List (Holding V)) : Prop where
  distinct : w.allocations.Nodup
  nodes : w.allocations.Perm
    ((w.placed hs).map (·.address) ++ (incoming hs ++ w.nodesAmong (w.outgoing hs)))
  values : w.deposits.Perm (w.withdrawals ++ (w.placed hs).filterMap Member.deposit?)
  once : (w.deposits.map (·.node) ++ incoming hs).Nodup
  known : ∀ d ∈ w.deposits, d.node ∈ w.allocations

variable {w w' : World V} {hs hs' : List (Holding V)} {a : Address}

/-- Addresses beside a new one are told apart as before. -/
theorem nodesAmong_grow (halloc : w'.allocations = w.memory.fresh :: w.allocations)
    {l : List Address} (hl : ∀ a ∈ l, a ≠ w.memory.fresh) : w'.nodesAmong l = w.nodesAmong l := by
  refine List.filter_congr fun a ha => ?_
  rw [halloc]
  simp [hl a ha]

theorem placed_same (h : (w.census hs).Valid) (hp : (w'.chains hs').Perm (w.chains hs))
    (hsame : ∀ a ∈ (w.census hs).linked, w'.memory.nodes.get? a = w.memory.nodes.get? a)
    (hfreed : w'.freed = w.freed) : (w'.placed hs').Perm (w.placed hs) := by
  rw [placed, hfreed]
  exact (members_same h hp hsame).append_right _

namespace Balanced

theorem mem_allocations (h : w.Balanced hs) {x : Member V} (hx : x ∈ w.placed hs) :
    x.address ∈ w.allocations :=
  h.nodes.mem_iff.2 (List.mem_append_left _ (List.mem_map_of_mem hx))

theorem same (h : w.Balanced hs) (halloc : w'.allocations = w.allocations)
    (hdep : w'.deposits = w.deposits) (hwith : w'.withdrawals = w.withdrawals)
    (hplaced : (w'.placed hs').Perm (w.placed hs)) (hnews : (incoming hs').Perm (incoming hs))
    (hout : (w.nodesAmong (w'.outgoing hs')).Perm (w.nodesAmong (w.outgoing hs))) :
    w'.Balanced hs' := by
  have hamong (l : List Address) : w'.nodesAmong l = w.nodesAmong l := by
    rw [nodesAmong, halloc]
    rfl
  refine ⟨halloc ▸ h.distinct, ?_, ?_, ?_, ?_⟩
  · rw [halloc, hamong]
    exact h.nodes.trans ((hplaced.map _).append (hnews.append hout)).symm
  · rw [hdep, hwith]
    exact h.values.trans ((hplaced.filterMap _).append_left _).symm
  · rw [hdep]
    exact (hnews.append_left _).nodup_iff.2 h.once
  · rw [hdep, halloc]
    exact h.known

/-- A node is new, with its queue or for an insertion. -/
theorem grow (h : w.Balanced hs) (hsound : w.Sound hs) (hcells : w.CellsApart)
    (halloc : w'.allocations = w.memory.fresh :: w.allocations) (hdep : w'.deposits = w.deposits)
    (hwith : w'.withdrawals = w.withdrawals) (hout : w'.outgoing hs' = w.outgoing hs)
    (hnodes : ((w'.placed hs').map (·.address) ++ incoming hs').Perm
      (w.memory.fresh :: ((w.placed hs).map (·.address) ++ incoming hs)))
    (hvalues : ((w'.placed hs').filterMap Member.deposit?).Perm
      ((w.placed hs).filterMap Member.deposit?))
    (honce : (w'.deposits.map (·.node) ++ incoming hs').Nodup) : w'.Balanced hs' := by
  refine ⟨?_, ?_, ?_, honce, ?_⟩
  · rw [halloc]
    refine List.nodup_cons.2 ⟨fun hmem => ?_, h.distinct⟩
    exact Nat.lt_irrefl _ (hcells.allocated _ hmem)
  · rw [halloc, hout, nodesAmong_grow halloc fun a => outgoing_ne_fresh hsound.census,
      ← List.append_assoc]
    refine .trans ?_ (hnodes.symm.append_right _)
    rw [List.cons_append, List.append_assoc]
    exact h.nodes.cons _
  · rw [hdep, hwith]
    exact h.values.trans (hvalues.symm.append_left _)
  · rw [hdep, halloc]
    exact fun d hd => List.mem_cons_of_mem _ (h.known d hd)

/-- A node leaves its chain, with the value that it has. -/
theorem remove {x : Member V} (h : w.Balanced hs) (halloc : w'.allocations = w.allocations)
    (hdep : w'.deposits = w.deposits)
    (hwith : w'.withdrawals = x.deposit?.toList ++ w.withdrawals)
    (hplaced : (w.placed hs).Perm (x :: w'.placed hs')) (hnews : incoming hs' = incoming hs)
    (hout : w'.outgoing hs' = x.address :: w.outgoing hs) : w'.Balanced hs' := by
  have hx : x.address ∈ w.allocations :=
    h.mem_allocations (hplaced.mem_iff.2 (List.mem_cons_self ..))
  have hamong : w'.nodesAmong (w'.outgoing hs') = x.address :: w.nodesAmong (w.outgoing hs) := by
    rw [nodesAmong, halloc, hout]
    exact List.filter_cons_of_pos (decide_eq_true hx)
  refine ⟨halloc ▸ h.distinct, ?_, ?_, ?_, ?_⟩
  · rw [halloc, hnews, hamong, ← List.append_assoc]
    refine (h.nodes.trans ((hplaced.map _).append_right _)).trans ?_
    rw [List.map_cons, List.cons_append, ← List.append_assoc]
    exact List.perm_middle.symm
  · rw [hdep, hwith]
    refine (h.values.trans ((hplaced.filterMap _).append_left _)).trans ?_
    cases hv : x.deposit? with
    | none => rw [List.filterMap_cons_none hv]; exact .refl _
    | some d =>
      rw [List.filterMap_cons_some hv]
      exact List.perm_middle
  · rw [hdep, hnews]
    exact h.once
  · rw [hdep, halloc]
    exact h.known

variable {name : Name} {q q' : Queue} {nodes : Nodes (Payload V)} {h₀ : Hazard} {c : CallId}
  {p : Payload V}

theorem createQueue (h : w.Balanced hs) (hsound : w.Sound hs) (hcells : w.CellsApart)
    (strategy : WaitStrategy) (hname : w.queues.get? name = none) :
    (World.emit { w with
      memory := (w.memory.allocateNode {}).2
      queues := w.queues.insert name (Queue.create w.nextQueue w.memory.fresh strategy)
      nextQueue := w.nextQueue + 1 } (.nodeAllocated w.memory.fresh)).Balanced hs := by
  have hmembers := members_createQueue (World.emit { w with
    memory := (w.memory.allocateNode {}).2
    queues := w.queues.insert name (Queue.create w.nextQueue w.memory.fresh strategy)
    nextQueue := w.nextQueue + 1 } (.nodeAllocated w.memory.fresh)) hsound.census hname rfl rfl rfl
  have hplaced := hmembers.append_right w.freed
  exact h.grow hsound hcells rfl rfl rfl rfl ((hplaced.map _).append_right _) (hplaced.filterMap _)
    h.once

theorem allocate (h : w.Balanced hs) (hsound : w.Sound hs) (hcells : w.CellsApart) (p : Payload V) :
    (World.emit { w with memory := (w.memory.allocateNode { slot := .full p }).2 }
      (.nodeAllocated w.memory.fresh)).Balanced (.newNode w.memory.fresh p :: hs) := by
  have hplaced : ((World.emit { w with memory := (w.memory.allocateNode { slot := .full p }).2 }
      (.nodeAllocated w.memory.fresh)).placed (.newNode w.memory.fresh p :: hs)).Perm
        (w.placed hs) :=
    placed_same hsound.census (.refl _) (fun a ha =>
      Table.get?_insert_of_ne (hsound.census.ne_fresh_of_linked ha)) rfl
  have hnew : w.memory.fresh ∉ w.deposits.map (·.node) ++ incoming hs := fun hmem => by
    rcases List.mem_append.1 hmem with hmem | hmem
    · obtain ⟨d, hd, hdf⟩ := List.mem_map.1 hmem
      exact Nat.lt_irrefl _ (hcells.allocated _ (hdf ▸ h.known d hd))
    · exact hsound.census.spaced.ne_fresh
        (List.mem_append_left _ (List.mem_append_right _ hmem)) rfl
  refine h.grow hsound hcells rfl rfl rfl rfl ?_ (hplaced.filterMap _) ?_
  · exact ((hplaced.map _).append_right _).trans List.perm_middle
  · exact List.perm_middle.nodup_iff.2 (List.nodup_cons.2 ⟨hnew, h.once⟩)

theorem link {a : Address} (h : w.Balanced (.hazard h₀ :: .newNode a p :: .visit name :: hs))
    (hsound : w.Sound (.hazard h₀ :: .newNode a p :: .visit name :: hs))
    (hq : w.queues.get? name = some q)
    (hround : q.enqueueRound w.memory.nodes a = .linked q' nodes) :
    (((w.setQueue name q').setNodes nodes).emit (.linked q'.id a p.value)).Balanced
      (.hazard h₀ :: .uncounted name :: hs) := by
  have hplaced : ((((w.setQueue name q').setNodes nodes).emit (.linked q'.id a p.value)).placed
      (.hazard h₀ :: .uncounted name :: hs)).Perm (⟨q'.id, a, some p.value⟩ ::
        w.placed (.hazard h₀ :: .newNode a p :: .visit name :: hs)) :=
    (members_link hsound.census (List.mem_cons_of_mem _ (List.mem_cons_self ..)) hq hround rfl rfl
      rfl).append_right _
  refine ⟨h.distinct, ?_, ?_, ?_, ?_⟩
  · refine (h.nodes.trans ?_).trans ((hplaced.map _).symm.append_right _)
    exact List.perm_middle
  · refine (h.values.cons ⟨q'.id, a, p.value⟩).trans (List.perm_middle.symm.trans ?_)
    exact (hplaced.filterMap Member.deposit?).symm.append_left _
  · exact List.perm_middle.nodup_iff.1 h.once
  · intro d hd
    rcases List.mem_cons.1 hd with rfl | hd
    · exact h.nodes.mem_iff.2 (List.mem_append_right _ (List.mem_cons_self ..))
    · exact h.known d hd

theorem claimFront (h : w.Balanced (.hazard h₀ :: .call name c :: hs))
    (hsound : w.Sound (.hazard h₀ :: .call name c :: hs)) (hq : w.queues.get? name = some q)
    (hround : q.dequeueRound w.memory.nodes = .claimed p q' nodes) :
    (((w.setQueue name q').setNodes nodes).emit
      (.removed q.id c (q.head.getD 0) p.value)).Balanced
        (.hazard h₀ :: .closing q'.id c (some p.value) :: hs) := by
  obtain ⟨rest, hold, hnew⟩ := members_claimFront (((w.setQueue name q').setNodes nodes).emit
    (.removed q.id c (q.head.getD 0) p.value)) (.hazard h₀ :: .closing q'.id c (some p.value) :: hs)
    hsound.census hq hround rfl rfl rfl
  have hold' := hold.append_right w.freed
  have hnew' := hnew.append_right w.freed
  refine ⟨h.distinct, ?_, ?_, h.once, h.known⟩
  · refine h.nodes.trans (List.Perm.append_right _ ?_)
    exact (hold'.map (·.address)).trans (hnew'.map (·.address)).symm
  · refine h.values.trans ((hold'.filterMap Member.deposit?).append_left _ |>.trans ?_)
    refine List.perm_middle.trans (List.Perm.cons _ (List.Perm.append_left _ ?_))
    exact (hnew'.filterMap Member.deposit?).symm

theorem unlink {a : Address} (h : w.Balanced (.hazard h₀ :: .call name c :: hs))
    (hsound : w.Sound (.hazard h₀ :: .call name c :: hs)) (hq : w.queues.get? name = some q)
    (hround : q.dequeueRound w.memory.nodes = .unlinked a q') :
    ((w.setQueue name q').noteUnlinked q.id c a).Balanced
      (.condemned ⟨a, .boxed⟩ :: .detached name c h₀ a :: hs) := by
  obtain ⟨n, next, -, -, hn, -, -⟩ := Queue.dequeueRound_unlinked hround
  have hmembers := members_unlink ((w.setQueue name q').noteUnlinked q.id c a)
    (.condemned ⟨a, .boxed⟩ :: .detached name c h₀ a :: hs) hsound.census hq hn hround
  rw [noteUnlinked_eq] at hmembers ⊢
  change World.Balanced { w.setQueue name q' with
    history := (((w.memory.nodes.get? a).bind fun n => n.slot.value?).toList.map fun p =>
      Event.removed q.id c a p.value) ++ w.history } _
  rw [hn, Option.bind_some]
  have hplaced := (hmembers rfl rfl rfl).append_right w.freed
  cases hv : n.slot.value? with
  | none => exact h.remove rfl rfl rfl (hv ▸ hplaced) rfl rfl
  | some p => exact h.remove rfl rfl rfl (hv ▸ hplaced) rfl rfl

end Balanced
end World

end Reclaim
