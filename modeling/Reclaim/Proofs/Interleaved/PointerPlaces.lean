import Reclaim.Interleaved.Protection
import Reclaim.Proofs.TableEntries

set_option autoImplicit false

namespace Reclaim.Interleaved

def Reclaimer.addresses (r : Reclaimer) : List Address :=
  r.unlinked ++ r.bag.records.map (·.address)

def ProtectionEvent.reclaimed? : ProtectionEvent → Option Address
  | reclaimed _ a => some a
  | _ => none

namespace ProtectionState
variable {s : ProtectionState} {t : ThreadId} {a : Address}

theorem reclaimer_setReclaimer (s : ProtectionState) (t u : ThreadId) (r : Reclaimer) :
    (s.setReclaimer t r).reclaimer u = if u = t then r else s.reclaimer u := by
  rw [reclaimer, setReclaimer, Table.get?_insert]
  split <;> rfl

theorem count_setReclaimer (s : ProtectionState) (t : ThreadId) (r : Reclaimer) (b : Address) :
    (s.setReclaimer t r).inUse.count b + (s.reclaimer t).addresses.count b =
      s.inUse.count b + r.addresses.count b := by
  have hold : (s.reclaimers.get? t).elim [] Reclaimer.addresses = (s.reclaimer t).addresses := by
    unfold reclaimer
    cases s.reclaimers.get? t <;> rfl
  have hcount := (s.reclaimers.flatMap_values_insert t r Reclaimer.addresses).count_eq b
  rw [hold, List.count_append, List.count_append] at hcount
  change List.count b (s.cells.values.filterMap id ++
      (s.reclaimers.insert t r).values.flatMap Reclaimer.addresses ++
      s.abandoned.records.map (·.address)) + _ =
    List.count b (s.cells.values.filterMap id ++ s.reclaimers.values.flatMap Reclaimer.addresses ++
      s.abandoned.records.map (·.address)) + _
  simp only [List.count_append]
  omega

theorem count_setCell (s : ProtectionState) (c : CellId) (new : Option Address) (b : Address) :
    { s with cells := s.cells.insert c new }.inUse.count b + (s.cellContent c).toList.count b =
      s.inUse.count b + new.toList.count b := by
  have hold : (s.cells.get? c).elim [] Option.toList = (s.cellContent c).toList := by
    unfold cellContent
    cases s.cells.get? c <;> rfl
  have hcount := (s.cells.flatMap_values_insert c new Option.toList).count_eq b
  rw [hold, List.count_append, List.count_append] at hcount
  have hflat (l : List (Option Address)) : l.filterMap id = l.flatMap Option.toList :=
    List.filterMap_eq_flatMap_toList id l
  simp only [inUse, hflat, List.count_append]
  omega

theorem count_setAbandoned (s : ProtectionState) (l : Abandoned) (b : Address) :
    { s with abandoned := l }.inUse.count b + (s.abandoned.records.map (·.address)).count b =
      s.inUse.count b + (l.records.map (·.address)).count b := by
  simp only [inUse, List.count_append]
  omega

theorem mem_inUse_of_cellContent {c : CellId} (h : s.cellContent c = some a) : a ∈ s.inUse := by
  have hcount := s.count_setCell c none a
  rw [h] at hcount
  apply List.count_pos_iff.1
  simp at hcount
  omega

theorem mem_inUse_of_mem_addresses (h : a ∈ (s.reclaimer t).addresses) : a ∈ s.inUse := by
  have hcount := s.count_setReclaimer t {} a
  have hpos := List.count_pos_iff.2 h
  have hempty : ({} : Reclaimer).addresses = [] := rfl
  rw [hempty, List.count_nil] at hcount
  apply List.count_pos_iff.1
  omega

/-- What is in a cell, no thread has. -/
theorem not_mem_addresses_of_cellContent {c : CellId} (hs : s.inUse.Nodup)
    (h : s.cellContent c = some a) (t : ThreadId) : a ∉ (s.reclaimer t).addresses := by
  intro hmem
  have hcount := s.count_setCell c none a
  have hrest : a ∈ { s with cells := s.cells.insert c none }.inUse :=
    mem_inUse_of_mem_addresses (t := t) hmem
  have hpos := List.count_pos_iff.2 hrest
  have hone := List.nodup_iff_count_le_one.1 hs a
  rw [h] at hcount
  simp at hcount
  omega

/-- A move of a thread puts `new` into use, and the events `l` are told on the way. What is then no
longer in use was retired to the thread's bag, and its scan did not see it. -/
structure Accounted (s : ProtectionState) (t : ThreadId) (new : Option Address)
    (l : List ProtectionEvent) (s' : ProtectionState) : Prop where
  history : s'.history = l ++ s.history
  fresh : ∀ a ∈ new, a ∉ s.inUse
  inUse : (s'.inUse ++ l.filterMap ProtectionEvent.reclaimed?).Perm (new.toList ++ s.inUse)
  unseen : ∀ a ∈ l.filterMap ProtectionEvent.reclaimed?,
    a ∈ (s.reclaimer t).bag.records.map (·.address) ∧
      ∃ seen, (s.reclaimer t).scan = some (0, seen) ∧ a ∉ seen

namespace Accounted
variable {s' : ProtectionState} {new : Option Address} {l : List ProtectionEvent}

theorem nodup (h : Accounted s t new l s') (hs : s.inUse.Nodup) : s'.inUse.Nodup := by
  have hall : (new.toList ++ s.inUse).Nodup := by
    cases new with
    | none => exact hs
    | some a => exact List.nodup_cons.2 ⟨h.fresh a rfl, hs⟩
  exact (h.inUse.nodup_iff.2 hall).of_append_left

theorem mem_inUse (h : Accounted s t new l s') (ha : a ∈ s.inUse)
    (hkept : a ∉ l.filterMap ProtectionEvent.reclaimed?) : a ∈ s'.inUse := by
  have hmem := h.inUse.mem_iff.2 (List.mem_append_right _ ha)
  exact (List.mem_append.1 hmem).resolve_right hkept

theorem refl (s : ProtectionState) (t : ThreadId) : Accounted s t none [] s where
  history := rfl
  fresh := by simp
  inUse := by simp
  unseen := by simp

end Accounted

theorem count_addresses (r : Reclaimer) (b : Address) :
    r.addresses.count b = r.unlinked.count b + (r.bag.records.map (·.address)).count b :=
  List.count_append

section moves
variable {r : Reclaimer}

theorem accounted_swap {c : CellId} {new : Option Address} (hnew : ∀ a ∈ new, a ∉ s.inUse)
    (hr : r.addresses = (s.cellContent c).toList ++ (s.reclaimer t).addresses) :
    Accounted s t new [] ({ s with cells := s.cells.insert c new }.setReclaimer t r) where
  history := rfl
  fresh := hnew
  inUse := by
    rw [List.filterMap_nil, List.append_nil]
    apply List.perm_iff_count.2
    intro b
    have hcell := s.count_setCell c new b
    have hthread := count_setReclaimer { s with cells := s.cells.insert c new } t r b
    change _ + (s.reclaimer t).addresses.count b = _ at hthread
    rw [hr] at hthread
    rw [List.count_append] at hthread ⊢
    omega
  unseen := by simp

theorem accounted_pass {u : ThreadId} {receiver : Reclaimer}
    (hr : (s.reclaimer t).addresses.Perm (a :: r.addresses))
    (hreceiver : receiver.addresses = a :: ((s.setReclaimer t r).reclaimer u).addresses) :
    Accounted s t none [] ((s.setReclaimer t r).setReclaimer u receiver) where
  history := rfl
  fresh := by simp
  inUse := by
    rw [List.filterMap_nil, List.append_nil]
    apply List.perm_iff_count.2
    intro b
    have hgiven := s.count_setReclaimer t r b
    have htaken := (s.setReclaimer t r).count_setReclaimer u receiver b
    have hsame := hr.count_eq b
    rw [hreceiver] at htaken
    rw [List.count_cons] at htaken hsame
    rw [Option.toList_none, List.nil_append]
    omega
  unseen := by simp

/-- A thread rearranges what it has. -/
theorem accounted_set {l : List ProtectionEvent}
    (hl : l.filterMap ProtectionEvent.reclaimed? = [])
    (hr : r.addresses.Perm (s.reclaimer t).addresses) :
    Accounted s t none l ({ s with history := l ++ s.history }.setReclaimer t r) where
  history := rfl
  fresh := by simp
  inUse := by
    rw [hl, List.append_nil]
    apply List.perm_iff_count.2
    intro b
    have hthread := count_setReclaimer { s with history := l ++ s.history } t r b
    have hsame := hr.count_eq b
    change _ + (s.reclaimer t).addresses.count b = s.inUse.count b + _ at hthread
    rw [Option.toList_none, List.nil_append]
    omega
  unseen := by simp [hl]

/-- A thread exchanges records with the abandoned bags. -/
theorem accounted_exchange {abandoned : Abandoned}
    (hr : (r.addresses ++ abandoned.records.map (·.address)).Perm
      ((s.reclaimer t).addresses ++ s.abandoned.records.map (·.address))) :
    Accounted s t none [] ({ s with abandoned }.setReclaimer t r) where
  history := rfl
  fresh := by simp
  inUse := by
    rw [List.filterMap_nil, List.append_nil]
    apply List.perm_iff_count.2
    intro b
    have hthread := count_setReclaimer { s with abandoned } t r b
    have hlist := s.count_setAbandoned abandoned b
    have hsame := hr.count_eq b
    change _ + (s.reclaimer t).addresses.count b = _ at hthread
    rw [List.count_append, List.count_append] at hsame
    rw [Option.toList_none, List.nil_append]
    omega
  unseen := by simp

/-- The scan is over: what it has seen stays in the bag. -/
theorem accounted_finishScan {seen : List Address}
    (hscan : (s.reclaimer t).scan = some (0, seen)) :
    ∃ l, Accounted s t none l (s.finishScan t (s.reclaimer t) seen) := by
  let split := (s.reclaimer t).bag.drainUnprotected (Snapshot.ofList seen) []
  let l := split.2.reverse.map fun g => ProtectionEvent.reclaimed t g.address
  have hl : l.filterMap ProtectionEvent.reclaimed? = split.2.reverse.map (·.address) := by
    rw [List.filterMap_map, ← List.filterMap_eq_map]
    rfl
  have hperm : (split.1.records ++ split.2).Perm (s.reclaimer t).bag.records := by
    simp only [split, Bag.drainUnprotected_records, Bag.drainUnprotected_snd, List.nil_append]
    exact separate_perm _ _
  refine ⟨l, rfl, by simp, ?_, ?_⟩
  · apply List.perm_iff_count.2
    intro b
    have hthread := count_setReclaimer { s with history := l ++ s.history } t
      ⟨(s.reclaimer t).unlinked, split.1, none⟩ b
    have hsame := (hperm.map (·.address)).count_eq b
    change (s.finishScan t (s.reclaimer t) seen).inUse.count b + (s.reclaimer t).addresses.count b =
      s.inUse.count b + _ at hthread
    rw [List.map_append, List.count_append] at hsame
    simp only [count_addresses] at hthread
    rw [hl, List.count_append, List.map_reverse, List.count_reverse, Option.toList_none,
      List.nil_append]
    omega
  · intro a ha
    rw [hl] at ha
    obtain ⟨g, hg, rfl⟩ := List.mem_map.1 ha
    have hg := List.mem_reverse.1 hg
    refine ⟨List.mem_map_of_mem (hperm.mem_iff.1 (List.mem_append_right _ hg)), seen, hscan, ?_⟩
    simp only [split, Bag.drainUnprotected_snd, List.nil_append] at hg
    intro hseen
    have hdrained := separate_drained _ _ g hg
    rw [(Snapshot.covers_ofList seen g.address).2 hseen] at hdrained
    cases hdrained

end moves

theorem reclaim_accounted (s : ProtectionState) (t : ThreadId) (m : ReclaimMove) :
    ∃ new l, Accounted s t new l (s.reclaim t m) := by
  unfold reclaim
  dsimp only
  split
  · rename_i c new _
    split
    · exact ⟨none, [], .refl s t⟩
    · rename_i hnew
      refine ⟨new, [], accounted_swap ?_ (List.append_assoc ..)⟩
      rintro a rfl
      simpa using hnew
  · split
    · rename_i ha
      exact ⟨none, [], accounted_pass ((List.perm_cons_erase ha).append_right _) rfl⟩
    · exact ⟨none, [], .refl s t⟩
  · split
    · rename_i a _ ha
      refine ⟨none, [.retired t a], accounted_set rfl ?_⟩
      rw [Reclaimer.addresses, Bag.records_push, List.map_append, ← List.append_assoc]
      refine (List.perm_append_singleton ..).trans ?_
      exact ((List.perm_cons_erase ha).append_right _).symm
    · exact ⟨none, [], .refl s t⟩
  · exact ⟨none, [], accounted_set rfl (.refl _)⟩
  · exact ⟨none, [], accounted_set rfl (.refl _)⟩
  · rename_i hscan
    exact ⟨none, accounted_finishScan hscan⟩
  · refine ⟨none, [], accounted_exchange ?_⟩
    simp [Reclaimer.addresses, Abandoned.push, Abandoned.records, Bag.empty, Bag.records]
  · split
    · rename_i bag abandoned hmerge
      obtain ⟨hbag, rfl⟩ := Prod.mk.inj hmerge
      have hmerged := s.abandoned.merged_perm
      rw [hbag] at hmerged
      refine ⟨none, [], accounted_exchange ?_⟩
      have hall := ((s.reclaimer t).bag.merge_perm bag).trans (hmerged.append_left _)
      simpa [Reclaimer.addresses, Abandoned.records] using
        (hall.map (·.address)).append_left (s.reclaimer t).unlinked
    · exact ⟨none, [], .refl s t⟩
  · exact ⟨none, [], .refl s t⟩

end ProtectionState
end Reclaim.Interleaved
