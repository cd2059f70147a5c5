import Reclaim.Proofs.Soundness

set_option autoImplicit false

namespace Reclaim
variable {V : Type}

def Event.allocated? : Event V → Option Address
  | .nodeAllocated a => some a
  | _ => none

namespace World

def allocations (w : World V) : List Address := w.history.filterMap Event.allocated?

/-- Objects, nodes and free addresses are apart, and nothing that was reclaimed is still stored. -/
structure CellsApart (w : World V) : Prop where
  apart : ∀ a, (w.memory.objects.get? a).isSome = true → w.memory.nodes.get? a = none
  bounded : ∀ a, w.Stored a → a < w.memory.fresh
  gone : ∀ r ∈ w.reclamations, ¬ w.Stored r.address
  named : ∀ a, w.IsRecord a → a < w.memory.fresh ∧ a ∉ w.allocations
  allocated : ∀ a ∈ w.allocations, a < w.memory.fresh

theorem allocations_note {w : World V} {e : Event V} (h : e.isVisible = true) :
    (w.emit e).allocations = w.allocations := by
  cases e <;> first | rfl | simp [Event.isVisible] at h

namespace CellsApart
variable {w w' : World V} {hs : List (Holding V)}

theorem congr (h : w.CellsApart) (hmemory : w'.memory = w.memory)
    (hreclaimed : w'.reclamations = w.reclamations) (hallocated : w'.allocations = w.allocations)
    (hrecords : ∀ a, w'.IsRecord a → w.IsRecord a) : w'.CellsApart where
  apart := hmemory ▸ h.apart
  bounded a ha := by
    rw [Stored, hmemory] at ha
    rw [hmemory]
    exact h.bounded a ha
  gone r hr := by
    rw [Stored, hmemory]
    exact h.gone r (hreclaimed ▸ hr)
  named a ha := by
    rw [hmemory, hallocated]
    exact h.named a (hrecords a ha)
  allocated := by
    rw [hmemory, hallocated]
    exact h.allocated

/-- Some cells change, and some go. -/
theorem shrink (h : w.CellsApart)
    (hobjects : ∀ a, (w'.memory.objects.get? a).isSome = true →
      (w.memory.objects.get? a).isSome = true)
    (hnodes : ∀ a, (w'.memory.nodes.get? a).isSome = true →
      (w.memory.nodes.get? a).isSome = true)
    (hfresh : w'.memory.fresh = w.memory.fresh)
    (hgone : ∀ r ∈ w'.reclamations, r ∈ w.reclamations ∨ ¬ w'.Stored r.address)
    (hallocated : w'.allocations = w.allocations)
    (hrecords : ∀ a, w'.IsRecord a → w.IsRecord a) : w'.CellsApart where
  apart a ha := by
    cases hn : w'.memory.nodes.get? a with
    | none => rfl
    | some n =>
      have hold := hnodes a (by rw [hn]; rfl)
      rw [h.apart a (hobjects a ha)] at hold
      cases hold
  bounded a ha := hfresh ▸ h.bounded a (ha.imp (hobjects a) (hnodes a))
  gone r hr := (hgone r hr).elim
    (fun hold hstored => h.gone r hold (hstored.imp (hobjects _) (hnodes _))) id
  named a ha := by
    rw [hfresh, hallocated]
    exact h.named a (hrecords a ha)
  allocated := by
    rw [hfresh, hallocated]
    exact h.allocated

theorem fresh_not_stored (h : w.CellsApart) : ¬ w.Stored w.memory.fresh :=
  fun hmem => Nat.lt_irrefl _ (h.bounded _ hmem)

/-- One cell is new. -/
theorem grow (h : w.CellsApart) (hsound : w.Sound hs)
    (hobjects : ∀ a, a ≠ w.memory.fresh →
      w'.memory.objects.get? a = w.memory.objects.get? a)
    (hnodes : ∀ a, a ≠ w.memory.fresh → w'.memory.nodes.get? a = w.memory.nodes.get? a)
    (hself : w'.memory.objects.get? w.memory.fresh = none ∨
      w'.memory.nodes.get? w.memory.fresh = none)
    (hfresh : w'.memory.fresh = w.memory.fresh + 1)
    (hreclaimed : w'.reclamations = w.reclamations)
    (hnamed : ∀ a, w'.IsRecord a → a < w'.memory.fresh ∧ a ∉ w'.allocations)
    (hallocated : ∀ a ∈ w'.allocations, a < w'.memory.fresh) : w'.CellsApart where
  apart a ha := by
    by_cases hne : a = w.memory.fresh
    · subst hne
      rcases hself with hnone | hnone
      · rw [hnone] at ha
        cases ha
      · exact hnone
    · rw [hobjects a hne] at ha
      rw [hnodes a hne]
      exact h.apart a ha
  bounded a ha := by
    rw [hfresh]
    by_cases hne : a = w.memory.fresh
    · exact Nat.lt_succ_of_le (Nat.le_of_eq hne)
    · rw [Stored, hobjects a hne, hnodes a hne] at ha
      exact Nat.lt_succ_of_lt (h.bounded a ha)
  gone r hr := by
    rw [hreclaimed] at hr
    have hretired : r.address ∈ w.retirements.map (·.address) :=
      List.mem_map_of_mem (hsound.account.subset (List.mem_append_left _ hr))
    have hne : r.address ≠ w.memory.fresh := by
      refine hsound.census.spaced.ne_fresh (List.mem_append_right _ (List.mem_append_left _ ?_))
      exact List.mem_append_right _ (List.mem_append_right _ hretired)
    rw [Stored, hobjects _ hne, hnodes _ hne]
    exact h.gone r hr
  named := hnamed
  allocated := hallocated

theorem createRecord (h : w.CellsApart) (hsound : w.Sound hs) (name : Name) (acts : List (Act V)) :
    CellsApart { w with
      memory := (w.memory.allocateObject ⟨name, acts⟩).2
      records := w.records.insert name { address := w.memory.fresh } } := by
  have hnone : w.memory.nodes.get? w.memory.fresh = none :=
    Option.not_isSome_iff_eq_none.1 fun hn => h.fresh_not_stored (.inr hn)
  refine h.grow hsound (fun a ha => Table.get?_insert_of_ne ha) (fun _ _ => rfl) (.inr hnone) rfl
    rfl ?_ fun a ha => Nat.lt_succ_of_lt (h.allocated a ha)
  rintro a ⟨name', e, he, rfl⟩
  dsimp only at he
  rw [Table.get?_insert] at he
  split at he
  · obtain rfl := Option.some.inj he
    exact ⟨Nat.lt_succ_self _, fun hmem => Nat.lt_irrefl _ (h.allocated _ hmem)⟩
  · obtain ⟨hlt, hnot⟩ := h.named e.address ⟨name', e, he, rfl⟩
    exact ⟨Nat.lt_succ_of_lt hlt, hnot⟩

theorem createNode (h : w.CellsApart) (hsound : w.Sound hs) {n : Node (Payload V)}
    (hmemory : w'.memory = (w.memory.allocateNode n).2)
    (hhistory : w'.history = .nodeAllocated w.memory.fresh :: w.history)
    (hrecords : w'.records = w.records) : w'.CellsApart := by
  have hnone : w.memory.objects.get? w.memory.fresh = none :=
    Option.not_isSome_iff_eq_none.1 fun ho => h.fresh_not_stored (.inl ho)
  have hallocations : w'.allocations = w.memory.fresh :: w.allocations := by
    rw [allocations, hhistory]
    rfl
  have hfresh : w'.memory.fresh = w.memory.fresh + 1 := by rw [hmemory]; rfl
  refine h.grow hsound (fun a _ => ?_) (fun a ha => ?_) (.inl ?_) hfresh ?_ (fun a ha => ?_)
    fun a ha => ?_
  · rw [hmemory]
    rfl
  · rw [hmemory]
    exact Table.get?_insert_of_ne ha
  · rw [hmemory]
    exact hnone
  · rw [reclamations, hhistory]
    rfl
  · rw [IsRecord, hrecords] at ha
    obtain ⟨hlt, hnot⟩ := h.named a ha
    rw [hfresh, hallocations]
    refine ⟨Nat.lt_succ_of_lt hlt, fun hmem => ?_⟩
    rcases List.mem_cons.1 hmem with rfl | hmem
    · exact Nat.lt_irrefl _ hlt
    · exact hnot hmem
  · rw [hallocations] at ha
    rw [hfresh]
    rcases List.mem_cons.1 ha with rfl | ha
    · exact Nat.lt_succ_self _
    · exact Nat.lt_succ_of_lt (h.allocated a ha)

theorem destroyObject (h : w.CellsApart) {r : Retired} {o : Object V}
    (ho : w.memory.objects.get? r.address = some o) :
    (World.emit (World.markGone { w with
      memory := { w.memory with objects := w.memory.objects.erase r.address } } o.name)
      (.reclaimed r)).CellsApart := by
  refine h.shrink (fun _ ha => (Table.isSome_of_erased ha).2) (fun _ => id) rfl (fun x hx => ?_) rfl
    fun _ => isRecord_markGone.1
  rcases List.mem_cons.1 hx with rfl | hx
  · refine .inr fun hstored => ?_
    rcases hstored with hstored | hstored
    · exact (Table.isSome_of_erased hstored).1 rfl
    · have hnode := h.apart x.address (by rw [ho]; rfl)
      exact Option.not_isSome_iff_eq_none.2 hnode hstored
  · exact .inl hx

theorem destroyNode (h : w.CellsApart) {r : Retired} (ho : w.memory.objects.get? r.address = none) :
    ((w.setNodes (w.memory.nodes.erase r.address)).emit (.reclaimed r)).CellsApart := by
  refine h.shrink (fun _ => id) (fun _ ha => (Table.isSome_of_erased ha).2) rfl (fun x hx => ?_) rfl
    fun _ => id
  rcases List.mem_cons.1 hx with rfl | hx
  · refine .inr fun hstored => ?_
    rcases hstored with hstored | hstored
    · exact Option.not_isSome_iff_eq_none.2 ho hstored
    · exact (Table.isSome_of_erased hstored).1 rfl
  · exact .inl hx

end CellsApart

theorem cellsApart_empty : ({} : World V).CellsApart := by
  refine ⟨?_, ?_, ?_, ?_, ?_⟩ <;>
    simp [Stored, IsRecord, Table.get?_empty, reclamations, allocations]

end World

namespace Effect
variable {lossy : Prop} {g : Registry} {w w' : World V} {hs hs' : List (Holding V)}

theorem cellsApart (e : Effect lossy g w hs w' hs') (hsound : w.Sound hs) (h : w.CellsApart) :
    w'.CellsApart := by
  -- A link or a vacated slot puts a node in the place of another.
  have hreplace {q : Queue} {name : Name} {a : Address} {n n' : Node (Payload V)}
      (hn : w.memory.nodes.get? a = some n) :
      ((w.setQueue name q).setNodes (w.memory.nodes.insert a n')).CellsApart :=
    h.shrink (fun _ => id) (fun _ => Table.isSome_of_replaced hn) rfl (fun _ => .inl) rfl
      fun _ => id
  cases e with
  | note e he _ =>
    exact h.congr rfl (World.reclamations_note he) (World.allocations_note he) fun _ => id
  | createRecord name acts hname => exact h.createRecord hsound name acts
  | createQueue name strategy hname => exact h.createNode hsound rfl rfl rfl
  | allocate p => exact h.createNode hsound rfl rfl rfl
  | condemn name e deleter he hretired =>
    exact h.congr rfl rfl rfl fun _ => (World.isRecord_retire he).1
  | link name q q' nodes hq hround =>
    obtain ⟨t, last, -, hlast, -, rfl, rfl⟩ := Queue.enqueueRound_linked hround
    exact (hreplace hlast).congr rfl rfl rfl fun _ => id
  | claimFront name q q' p nodes hq hround =>
    obtain ⟨b, n, -, -, hn, -, rfl, rfl⟩ := Queue.dequeueRound_claimed hround
    exact (hreplace hn).congr rfl rfl rfl fun _ => id
  | claimDetached name q q' p nodes hq hclaim =>
    obtain ⟨n, hn, -, rfl, rfl⟩ := Queue.claim_taken hclaim
    exact hreplace hn
  | unlink name q q' a hq hround =>
    refine h.congr ?_ (World.reclamations_noteUnlinked ..) ?_ ?_ <;> rw [World.noteUnlinked_eq]
    · rfl
    · cases (((w.setQueue name q').memory.nodes.get? a).bind fun n => n.slot.value?) <;> rfl
    · exact fun _ => id
  | destroyObject o ho => exact h.destroyObject ho
  | destroyNode n ho hn => exact h.destroyNode ho
  | free n hn =>
    exact h.shrink (fun _ => id) (fun _ ha => (Table.isSome_of_erased ha).2) rfl (fun _ => .inl) rfl
      fun _ => id
  | reorder | lose | fault | configure | storeCells | setThread | spare | declare | settle | scan
  | abandon | acquire | publish | republish | giveName | takeName | release | enter | depart
  | count | setWaiter | help | begin | findEmpty | missDetached | giveUp | finish | freed | vacant
  | drop | discard => exact h.congr rfl rfl rfl fun _ => id

end Effect

theorem Run.Reachable.cellsApart {m : Run V} (h : m.Reachable) : m.world.CellsApart := by
  have hall : m.world.Sound m.holdings ∧ m.world.CellsApart := by
    refine @of_effects V (fun w hs => w.Sound hs ∧ w.CellsApart) ?_ ?_ m h
    · exact ⟨World.sound_empty, World.cellsApart_empty⟩
    · exact fun _ _ _ _ _ _ e ih => ⟨e.sound ih.1, e.cellsApart ih.1 ih.2⟩
  exact hall.2

end Reclaim
