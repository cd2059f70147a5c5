import Reclaim.Proofs.ChainMembers
import Reclaim.Proofs.StoredCells

set_option autoImplicit false

namespace Reclaim
variable {V : Type}

def Event.freed? : Event V → Option (Member V)
  | .nodeFreed i a v => some ⟨i, a, v⟩
  | _ => none

def Holding.dropping? : Holding V → Option V
  | dropping v => v
  | _ => none

namespace World

def freed (w : World V) : List (Member V) := w.history.filterMap Event.freed?

def drops (w : World V) : List V := w.history.filterMap Event.dropped?

/-- All that was retired or is about to be. -/
def outgoing (w : World V) (hs : List (Holding V)) : List Address :=
  hs.filterMap Holding.condemned? ++ w.retirements.map (·.address)

/-- A node on its way out has no value, unless an attempt may still claim it. -/
def Vacated (w : World V) (hs : List (Holding V)) : Prop :=
  ∀ a ∈ w.outgoing hs, a ∈ (w.census hs).loose ∨ w.memory.nodes.value? a = none

def Disposed (w : World V) (hs : List (Holding V)) : Prop :=
  (w.freed.filterMap (·.value)).Perm (w.drops ++ hs.filterMap Holding.dropping?)

variable {w w' : World V} {hs hs' : List (Holding V)} {a : Address}

theorem outgoing_ne_fresh (h : (w.census hs).Valid) (ha : a ∈ w.outgoing hs) :
    a ≠ w.memory.fresh :=
  h.spaced.ne_fresh (List.mem_append_right _ (List.mem_append_left _ (List.mem_append_right _ ha)))

theorem outgoing_scan (w : World V) (rs ds ls : List Retired) (hs : List (Holding V)) :
    w.outgoing (ds.map .doomed ++ (ls.map .unbagged ++ hs)) =
      w.outgoing (rs.map .unbagged ++ hs) := by
  unfold outgoing
  rw [Holding.filterMap_scan _ (fun _ => rfl) (fun _ => rfl) rs ds ls]

theorem outgoing_unlinked (w : World V) (i : QueueId) (c : CallId) (a : Address)
    (hs : List (Holding V)) : (w.noteUnlinked i c a).outgoing hs = w.outgoing hs := by
  rw [outgoing, retirements_noteUnlinked]
  rfl

theorem vacated_empty : ({} : World V).Vacated [] := fun _ ha => absurd ha List.not_mem_nil

theorem disposed_empty : ({} : World V).Disposed [] := .refl _

theorem Vacated.mono (h : w.Vacated hs) (hout : w'.outgoing hs' ⊆ w.outgoing hs)
    (hloose : ∀ a ∈ (w.census hs).loose,
      a ∈ (w'.census hs').loose ∨ w'.memory.nodes.value? a = none)
    (hvalue : ∀ a ∈ w.outgoing hs, w.memory.nodes.value? a = none →
      w'.memory.nodes.value? a = none) : w'.Vacated hs' := fun a ha =>
  (h a (hout ha)).elim (hloose a) fun hnone => .inr (hvalue a (hout ha) hnone)

/-- What is reclaimed is no node with a value. -/
theorem Vacated.doomed (h : w.Vacated hs) (hsound : w.Sound hs) {r : Retired}
    (hr : Holding.doomed r ∈ hs) : w.memory.nodes.value? r.address = none := by
  have hretired := Effect.doomed_address_mem hsound.account hr
  refine (h r.address (List.mem_append_right _ hretired)).resolve_left fun hloose => ?_
  obtain ⟨x, hx, hxr⟩ := List.mem_map.1 hloose
  exact (hsound.guarded x hx).2 (Holding.mem_doomed.2 ⟨r, hr, hxr.symm⟩)

end World

namespace Effect
variable {g : Registry} {w w' : World V} {hs hs' : List (Holding V)}

theorem vacated (e : Effect False g w hs w' hs') (hsound : w.Sound hs) (hcells : w.CellsApart)
    (h : w.Vacated hs) : w'.Vacated hs' := by
  have hvacate {n : Node (Payload V)} {a b : Address} (hb : w.memory.nodes.value? b = none) :
      Nodes.value? (w.memory.nodes.insert a { n with slot := .vacant }) b = none := by
    rw [Nodes.value?_vacate, hb, ite_self]
  have herase {a b : Address} (hb : w.memory.nodes.value? b = none) :
      Nodes.value? (w.memory.nodes.erase a) b = none := by
    rw [Nodes.value?_erase, hb, ite_self]
  have hfresh {n : Node (Payload V)} {a : Address} (ha : a ∈ w.outgoing hs)
      (hnone : w.memory.nodes.value? a = none) :
      Nodes.value? (w.memory.nodes.insert w.memory.fresh n) a = none := by
    rw [Nodes.value?, Table.get?_insert_of_ne (World.outgoing_ne_fresh hsound.census ha)]
    exact hnone
  cases e with
  | reorder hp =>
    refine h.mono ((hp.symm.filterMap _).append_right _).subset (fun a ha => .inl ?_) fun _ _ => id
    exact ((hp.filterMap _).map _).subset ha
  | lose hfalse => exact hfalse.elim
  | giveUp hfalse => exact hfalse.elim
  | fault hk hlacks => exact absurd hlacks (hsound.not_lacks _ hk)
  | note e he =>
    refine h.mono ?_ (fun _ => .inl) fun _ _ => id
    rw [World.outgoing, World.retirements_note he]
    exact List.Subset.refl _
  | createQueue | allocate =>
    exact h.mono (List.Subset.refl _) (fun _ => .inl) fun _ ha hnone => hfresh ha hnone
  | condemn name e deleter he hretired =>
    intro a ha
    rcases List.mem_cons.1 ha with rfl | ha
    · -- A record is no node.
      have hobject : (w.memory.objects.get? e.address).isSome = true :=
        hsound.unretired e.address (List.mem_filterMap.2
          ⟨e, Table.mem_values.2 ⟨name, he⟩, by simp [RecordEntry.unretired?, hretired]⟩)
      refine .inr ?_
      change w.memory.nodes.value? e.address = none
      rw [Nodes.value?, hcells.apart _ hobject]
      rfl
    · exact h a ha
  | spare => exact h.mono (List.subset_cons_self _ _) (fun _ => .inl) fun _ _ => id
  | declare => exact h.mono List.perm_middle.subset (fun _ => .inl) fun _ _ => id
  | scan rs ds ls t s =>
    refine h.mono ?_ (fun a ha => .inl ?_) fun _ _ => id
    · exact (List.Perm.of_eq (World.outgoing_scan w rs ds ls _)).subset
    · rw [World.census_doomed, World.census_unbagged]
      rwa [World.census_unbagged] at ha
  | abandon b =>
    refine h.mono ?_ (fun a ha => .inl ?_) fun _ _ => id
    · unfold World.outgoing
      rw [Holding.filterMap_map_append .unbagged _ fun _ => rfl]
      exact List.Subset.refl _
    · rwa [World.census_unbagged] at ha
  | link name q q' nodes hq hround =>
    obtain ⟨t, last, -, hlast, -, -, rfl⟩ := Queue.enqueueRound_linked hround
    exact h.mono (List.Subset.refl _) (fun _ => .inl) fun a _ hnone =>
      (Nodes.value?_setNext hlast _ a).trans hnone
  | claimFront name q q' p nodes hq hround =>
    obtain ⟨b, n, -, -, -, -, -, rfl⟩ := Queue.dequeueRound_claimed hround
    exact h.mono (List.Subset.refl _) (fun _ => .inl) fun _ _ => hvacate
  | @unlink h₀ c hs name q q' a =>
    intro b hb
    rw [World.outgoing_unlinked] at hb
    rw [World.census_noteUnlinked, World.noteUnlinked_eq]
    rcases List.mem_cons.1 hb with rfl | hb
    · exact .inl (List.mem_cons_self ..)
    · exact (h b hb).imp_left (List.mem_cons_of_mem _)
  | claimDetached name q q' p nodes hq hclaim =>
    obtain ⟨n, -, -, -, rfl⟩ := Queue.claim_taken hclaim
    refine h.mono (List.Subset.refl _) (fun a ha => ?_) fun _ _ => hvacate
    rcases List.mem_cons.1 ha with rfl | ha
    · exact .inr ((Nodes.value?_vacate ..).trans (if_pos rfl))
    · exact .inl ha
  | missDetached name q hq hclaim =>
    obtain ⟨n, hn, hv⟩ := Queue.claim_refused hclaim
    refine h.mono (List.Subset.refl _) (fun a ha => ?_) fun _ _ => id
    rcases List.mem_cons.1 ha with rfl | ha
    · refine .inr ?_
      rw [Nodes.value?, hn]
      exact hv
    · exact .inl ha
  | destroyNode | free =>
    exact h.mono (List.Subset.refl _) (fun _ => .inl) fun _ _ => herase
  | discard => exact h.mono (List.Subset.refl _) (fun _ => .inl) fun _ _ => id
  | configure | storeCells | setThread | createRecord | settle | acquire | publish | republish
  | giveName | takeName | release | enter | depart | count | setWaiter | help | begin | findEmpty
  | finish | destroyObject | freed | vacant | drop => exact h

theorem disposed (e : Effect False g w hs w' hs') (hsound : w.Sound hs) (hvacated : w.Vacated hs)
    (h : w.Disposed hs) : w'.Disposed hs' := by
  cases e with
  | reorder hp => exact List.Perm.trans h ((hp.filterMap _).append_left _)
  | lose hfalse => exact hfalse.elim
  | giveUp hfalse => exact hfalse.elim
  | fault hk hlacks => exact absurd hlacks (hsound.not_lacks _ hk)
  | note e he hdropped =>
    cases e with
    | valueDropped v => cases hdropped
    | nodeFreed i a v => cases he
    | _ => exact h
  | scan rs ds ls t s =>
    unfold World.Disposed at h ⊢
    rwa [Holding.filterMap_scan _ (fun _ => rfl) (fun _ => rfl) rs ds ls]
  | abandon b =>
    unfold World.Disposed at h ⊢
    rw [Holding.filterMap_map_append .unbagged _ fun _ => rfl] at h
    exact h
  | unlink =>
    rw [World.noteUnlinked_eq]
    cases Option.bind _ _ <;> exact h
  | @destroyNode r hs n ho hn =>
    have hnone := hvacated.doomed hsound (List.mem_cons_self ..)
    rw [Nodes.value?, hn, Option.bind_some] at hnone
    rw [hnone]
    exact h
  | @free i a hs n hn =>
    cases n.slot.value? with
    | none => exact h
    | some p => exact (h.cons p.value).trans List.perm_middle.symm
  | drop => exact h.trans List.perm_middle
  | configure | storeCells | setThread | createRecord | createQueue | condemn | spare | declare
  | settle | acquire | publish | republish | giveName | takeName | release | enter | depart
  | allocate | link | count | setWaiter | help | begin | claimFront | findEmpty | claimDetached
  | missDetached | finish | destroyObject | freed | vacant | discard => exact h

end Effect

theorem Run.Reaches.vacated {m : Run V} (h : Reaches IsCalm idle m) :
    m.world.Vacated m.holdings ∧ m.world.Disposed m.holdings := by
  have hall : (m.world.Sound m.holdings ∧ m.world.CellsApart) ∧ m.world.Vacated m.holdings ∧
      m.world.Disposed m.holdings := by
    refine @of_effects V
      (fun w hs => (w.Sound hs ∧ w.CellsApart) ∧ w.Vacated hs ∧ w.Disposed hs) ?_ ?_ m h
    · exact ⟨⟨World.sound_empty, World.cellsApart_empty⟩, World.vacated_empty, World.disposed_empty⟩
    · intro g w hs w' hs' e ⟨⟨hsound, hcells⟩, hvacated, hdisposed⟩
      exact ⟨⟨e.sound hsound, e.cellsApart hsound hcells⟩, e.vacated hsound hcells hvacated,
        e.disposed hsound hvacated hdisposed⟩
  exact hall.2

end Reclaim
