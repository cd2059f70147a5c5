import Mathlib.Data.List.Nodup
import Mathlib.Data.List.Perm.Subperm
import Reclaim.Table

set_option autoImplicit false

namespace Reclaim.Table
variable {κ α : Type} [Ord κ]

theorem map_fst_entries (t : Table κ α) : t.entries.map (·.1) = t.keys :=
  Std.TreeMap.map_fst_toList_eq_keys

theorem length_values (t : Table κ α) : t.values.length = t.size := by
  rw [values, List.length_map]
  exact Std.TreeMap.length_toList

variable [Std.TransOrd κ]

theorem nodup_keys (t : Table κ α) : t.keys.Nodup :=
  Std.TreeMap.nodup_keys

theorem nodup_entries (t : Table κ α) : t.entries.Nodup :=
  List.Nodup.of_map (·.1) (by rw [map_fst_entries]; exact nodup_keys t)

variable [Std.LawfulEqOrd κ]

theorem mem_entries {t : Table κ α} {k : κ} {a : α} :
    (k, a) ∈ t.entries ↔ t.get? k = some a :=
  Std.TreeMap.mem_toList_iff_getElem?_eq_some

theorem mem_values {t : Table κ α} {a : α} : a ∈ t.values ↔ ∃ k, t.get? k = some a := by
  simp only [values, List.mem_map]
  constructor
  · rintro ⟨⟨k, b⟩, he, rfl⟩
    exact ⟨k, mem_entries.1 he⟩
  · rintro ⟨k, hk⟩
    exact ⟨(k, a), mem_entries.2 hk, rfl⟩

theorem values_empty : ({} : Table κ α).values = [] := by
  have h : ∀ a, a ∉ ({} : Table κ α).values := by
    intro a ha
    obtain ⟨k, hk⟩ := mem_values.1 ha
    simp [get?_empty] at hk
  exact List.eq_nil_iff_forall_not_mem.2 h

theorem mem_keys {t : Table κ α} {k : κ} : k ∈ t.keys ↔ (t.get? k).isSome = true := by
  rw [← map_fst_entries, List.mem_map, Option.isSome_iff_exists]
  constructor
  · rintro ⟨⟨j, a⟩, he, rfl⟩
    exact ⟨a, mem_entries.1 he⟩
  · rintro ⟨a, ha⟩
    exact ⟨(k, a), mem_entries.2 ha, rfl⟩

/-- Distinct keys of a table are not more than its entries. -/
theorem length_le_size {t : Table κ α} {l : List κ} (hl : l.Nodup)
    (h : ∀ k ∈ l, (t.get? k).isSome = true) : l.length ≤ t.size := by
  have hsub : l ⊆ t.keys := fun k hk => mem_keys.2 (h k hk)
  calc
    l.length ≤ t.keys.length := (hl.subperm hsub).length_le
    _ = t.size := Std.TreeMap.length_keys

variable [DecidableEq κ]

theorem isSome_insert {t : Table κ α} {j : κ} (h : (t.get? j).isSome = true) (k : κ) (a : α) :
    ((t.insert k a).get? j).isSome = true := by
  rw [get?_insert]
  split
  · rfl
  · exact h

theorem isSome_erase {t : Table κ α} {j k : κ} (h : (t.get? j).isSome = true) (hjk : j ≠ k) :
    ((t.erase k).get? j).isSome = true := by
  rwa [get?_erase_of_ne hjk]

theorem isSome_of_replaced {t : Table κ α} {j k : κ} {a b : α} (hk : t.get? k = some a)
    (h : ((t.insert k b).get? j).isSome = true) : (t.get? j).isSome = true := by
  rw [get?_insert] at h
  split at h
  · rename_i hjk
    rw [hjk, hk]
    rfl
  · exact h

theorem isSome_of_erased {t : Table κ α} {j k : κ} (h : ((t.erase k).get? j).isSome = true) :
    j ≠ k ∧ (t.get? j).isSome = true := by
  rw [get?_erase] at h
  split at h
  · cases h
  · rename_i hjk
    exact ⟨hjk, h⟩

theorem entries_insert (t : Table κ α) (k : κ) (a : α) :
    (t.insert k a).entries.Perm ((k, a) :: (t.erase k).entries) := by
  have hnew : (k, a) ∉ (t.erase k).entries := by
    rw [mem_entries, get?_erase, if_pos rfl]
    simp
  refine (List.perm_ext_iff_of_nodup (nodup_entries _)
    (List.nodup_cons.2 ⟨hnew, nodup_entries _⟩)).2 ?_
  rintro ⟨j, b⟩
  rw [List.mem_cons, mem_entries, mem_entries, get?_insert, get?_erase]
  by_cases h : j = k
  · simp [h, eq_comm]
  · simp [h]

theorem entries_erase {t : Table κ α} {k : κ} {a : α} (h : t.get? k = some a) :
    t.entries.Perm ((k, a) :: (t.erase k).entries) := by
  have hnew : (k, a) ∉ (t.erase k).entries := by
    rw [mem_entries, get?_erase, if_pos rfl]
    simp
  refine (List.perm_ext_iff_of_nodup (nodup_entries _)
    (List.nodup_cons.2 ⟨hnew, nodup_entries _⟩)).2 ?_
  rintro ⟨j, b⟩
  rw [List.mem_cons, mem_entries, mem_entries, get?_erase]
  by_cases hj : j = k
  · subst hj
    simp [h, eq_comm]
  · simp [hj]

theorem entries_erase_of_none {t : Table κ α} {k : κ} (h : t.get? k = none) :
    (t.erase k).entries.Perm t.entries := by
  apply (List.perm_ext_iff_of_nodup (nodup_entries _) (nodup_entries _)).2
  rintro ⟨j, b⟩
  rw [mem_entries, mem_entries, get?_erase]
  by_cases hj : j = k
  · subst hj
    simp [h]
  · simp [hj]

theorem entries_modify {t : Table κ α} {k : κ} {a : α} (h : t.get? k = some a) (f : α → α) :
    (t.modify k f).entries.Perm ((k, f a) :: (t.erase k).entries) := by
  have hk : (t.modify k f).get? k = some (f a) := by rw [get?_modify, if_pos rfl, h]; rfl
  refine (entries_erase hk).trans (List.Perm.cons _ ?_)
  apply (List.perm_ext_iff_of_nodup (nodup_entries _) (nodup_entries _)).2
  rintro ⟨j, b⟩
  rw [mem_entries, mem_entries, get?_erase, get?_erase, get?_modify]
  by_cases hj : j = k <;> simp [hj]

theorem values_insert (t : Table κ α) (k : κ) (a : α) :
    (t.insert k a).values.Perm (a :: (t.erase k).values) :=
  (entries_insert t k a).map _

theorem values_erase {t : Table κ α} {k : κ} {a : α} (h : t.get? k = some a) :
    t.values.Perm (a :: (t.erase k).values) :=
  (entries_erase h).map _

theorem values_erase_of_none {t : Table κ α} {k : κ} (h : t.get? k = none) :
    (t.erase k).values.Perm t.values :=
  (entries_erase_of_none h).map _

theorem values_modify {t : Table κ α} {k : κ} {a : α} (h : t.get? k = some a) (f : α → α) :
    (t.modify k f).values.Perm (f a :: (t.erase k).values) :=
  (entries_modify h f).map _

theorem values_insert_new {t : Table κ α} {k : κ} (h : t.get? k = none) (a : α) :
    (t.insert k a).values.Perm (a :: t.values) :=
  (values_insert t k a).trans ((values_erase_of_none h).cons a)

theorem size_insert_new {t : Table κ α} {k : κ} (h : t.get? k = none) (a : α) :
    (t.insert k a).size = t.size + 1 := by
  rw [← length_values, ← length_values, (values_insert_new h a).length_eq, List.length_cons]

theorem size_insert {t : Table κ α} {k : κ} {b : α} (h : t.get? k = some b) (a : α) :
    (t.insert k a).size = t.size := by
  rw [← length_values, ← length_values, (values_insert t k a).length_eq,
    (values_erase h).length_eq, List.length_cons, List.length_cons]

theorem size_erase {t : Table κ α} {k : κ} {a : α} (h : t.get? k = some a) :
    t.size = (t.erase k).size + 1 := by
  rw [← length_values, ← length_values, (values_erase h).length_eq, List.length_cons]

theorem filterMap_values_modify {β : Type} (t : Table κ α) (k : κ) {f : α → α} {g : α → Option β}
    (hg : ∀ a, g (f a) = g a) :
    ((t.modify k f).values.filterMap g).Perm (t.values.filterMap g) := by
  cases h : t.get? k with
  | none =>
    have hk : (t.modify k f).get? k = none := by rw [get?_modify, if_pos rfl, h]; rfl
    have hsame : ((t.modify k f).erase k).entries.Perm (t.erase k).entries := by
      apply (List.perm_ext_iff_of_nodup (nodup_entries _) (nodup_entries _)).2
      rintro ⟨j, b⟩
      rw [mem_entries, mem_entries, get?_erase, get?_erase, get?_modify]
      by_cases hj : j = k <;> simp [hj]
    have hall := ((entries_erase_of_none hk).symm.trans hsame).trans (entries_erase_of_none h)
    exact (hall.map _).filterMap g
  | some a =>
    have hnew := (values_modify h f).filterMap g
    have hold := (values_erase h).filterMap g
    rw [List.filterMap_cons, hg] at hnew
    rw [List.filterMap_cons] at hold
    exact hnew.trans hold.symm

theorem flatMap_values_insert {β : Type} (t : Table κ α) (k : κ) (a : α) (f : α → List β) :
    ((t.insert k a).values.flatMap f ++ (t.get? k).elim [] f).Perm
      (t.values.flatMap f ++ f a) := by
  cases h : t.get? k with
  | none =>
    have hnew := (values_insert_new h a).flatMap_right f
    rw [List.flatMap_cons] at hnew
    rw [Option.elim_none, List.append_nil]
    exact hnew.trans List.perm_append_comm
  | some old =>
    have hnew := (values_insert t k a).flatMap_right f
    have hold := (values_erase h).flatMap_right f
    calc
      ((t.insert k a).values.flatMap f ++ f old).Perm
          ((f a ++ (t.erase k).values.flatMap f) ++ f old) := hnew.append_right _
      _ |>.Perm (f old ++ (f a ++ (t.erase k).values.flatMap f)) := List.perm_append_comm
      _ |>.Perm (f old ++ ((t.erase k).values.flatMap f ++ f a)) :=
          List.perm_append_comm.append_left _
      _ |>.Perm (t.values.flatMap f ++ f a) := by
          rw [← List.append_assoc]
          exact hold.symm.append_right _

end Reclaim.Table
