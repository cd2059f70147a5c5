import Reclaim.Registry

set_option autoImplicit false

namespace Reclaim.Registry

inductive Acquired (g : Registry) (i : RecordId) : Registry → Prop where
  | captured (r : HazardRecord) : g.records[i]? = some r → r.active = false →
      Acquired g i { g.update i (fun r => { r with active := true }) with active := g.active + 1 }
  | allocated : (∀ r ∈ g.records, r.active = true) → i = g.records.size → Acquired g i g.allocate.2

theorem mem_protectedAddresses {g : Registry} {a : Address} :
    a ∈ g.protectedAddresses ↔ ∃ i, g.target i = some a := by
  simp only [protectedAddresses, numbers, List.mem_filterMap, List.mem_reverse, List.mem_range]
  constructor
  · rintro ⟨i, -, h⟩
    exact ⟨i, h⟩
  · rintro ⟨i, h⟩
    refine ⟨i, ?_, h⟩
    obtain ⟨r, hr, -⟩ := Option.bind_eq_some_iff.1 h
    exact (Array.getElem?_eq_some_iff.1 hr).1

theorem isActive_eq_false {g : Registry} {i : RecordId} (hi : g.contains i = true)
    (h : g.isActive i = false) : ∃ r, g.records[i]? = some r ∧ r.active = false := by
  have hi : i < g.records.size := of_decide_eq_true hi
  refine ⟨g.records[i], Array.getElem?_eq_getElem hi, ?_⟩
  simpa [isActive, Array.getElem?_eq_getElem hi] using h

theorem acquired_of_tryCapture {g g' : Registry} {i : RecordId}
    (h : g.tryCapture i = (true, g')) : Acquired g i g' := by
  unfold tryCapture capture at h
  split at h
  · rename_i g₁ hg
    split at hg
    · rename_i hc
      obtain ⟨hi, ha⟩ := Bool.and_eq_true_iff.1 hc
      obtain ⟨r, hr, hra⟩ := isActive_eq_false hi (by simpa using ha)
      obtain ⟨-, rfl⟩ := Prod.mk.inj hg
      obtain ⟨-, rfl⟩ := Prod.mk.inj h
      exact .captured r hr hra
    · simp at hg
  · simp at h

theorem acquired_of_takeCached {g g' : Registry} {i : RecordId} {cache rest : List RecordId}
    (h : g.takeCached cache = (some i, rest, g')) : Acquired g i g' := by
  induction cache with
  | nil => simp [takeCached] at h
  | cons j cache ih =>
    unfold takeCached at h
    split at h
    · rename_i g₁ hg
      obtain ⟨hj, -, rfl⟩ : j = i ∧ cache = rest ∧ g₁ = g' := by simpa using h
      exact hj ▸ acquired_of_tryCapture hg
    · exact ih h

/-- A search in the cache only drops entries. -/
theorem takeCached_suffix (g : Registry) (cache : List RecordId) :
    (g.takeCached cache).2.1 <:+ cache := by
  induction cache with
  | nil => exact List.suffix_refl _
  | cons i cache ih =>
    unfold takeCached
    split
    · exact List.suffix_cons i cache
    · exact ih.trans (List.suffix_cons i cache)

theorem activated_acquired (g : Registry) : Acquired g g.activated.1 g.activated.2 := by
  unfold activated
  split
  · rename_i i hi
    have hmem := List.mem_of_find?_eq_some hi
    have hcontains : g.contains i = true := by
      simpa [numbers, contains] using hmem
    have hidle := List.find?_some hi
    have hcapture : g.tryCapture i = (true, (g.tryCapture i).2) := by
      simp [tryCapture, capture, hcontains, hidle]
    exact acquired_of_tryCapture hcapture
  · rename_i hnone
    refine .allocated ?_ rfl
    intro r hr
    obtain ⟨i, hi, rfl⟩ := Array.mem_iff_getElem.1 hr
    have := List.find?_eq_none.1 hnone i (by simpa [numbers] using hi)
    simpa [isActive, Array.getElem?_eq_getElem hi] using this

theorem Acquired.records_self {g g' : Registry} {i : RecordId} (h : Acquired g i g') :
    ∃ target, g'.records[i]? = some { target, active := true } ∧
      ∀ r, g.records[i]? = some r → r.active = false ∧ r.target = target := by
  cases h with
  | captured r hr ha =>
    refine ⟨r.target, by simp [update, Array.getElem?_modify, hr], ?_⟩
    intro r' hr'
    obtain rfl := Option.some.inj (hr.symm.trans hr')
    exact ⟨ha, rfl⟩
  | allocated hall hi =>
    subst hi
    exact ⟨none, by simp [allocate], by simp⟩

theorem Acquired.records_ne {g g' : Registry} {i j : RecordId} (h : Acquired g i g')
    (hj : j ≠ i) : g'.records[j]? = g.records[j]? := by
  cases h with
  | captured r hr ha => simp [update, Array.getElem?_modify, hj.symm]
  | allocated hall hi =>
    subst hi
    simp [allocate, Array.getElem?_push, hj]

theorem records_protect (g : Registry) (i j : RecordId) (a : Option Address) :
    (g.protect i a).records[j]? =
      if i = j then g.records[j]?.map (fun r => { r with target := a }) else g.records[j]? := by
  simp [protect, update, Array.getElem?_modify]

theorem records_release {g g' : Registry} {i : RecordId} (h : g.release i = .ok g') (j : RecordId) :
    g'.records[j]? =
      if i = j then g.records[j]?.map (fun _ => { target := none, active := false })
      else g.records[j]? := by
  unfold release at h
  split at h
  · obtain rfl := Except.ok.inj h
    simp [deactivate, update, Array.getElem?_modify]
  · simp at h

theorem isActive_of_release_error {g : Registry} {i : RecordId} {p : Panic}
    (h : g.release i = .error p) : g.isActive i = false := by
  unfold release at h
  split at h
  · cases h
  · rename_i hactive
    exact Bool.eq_false_iff.2 hactive

end Reclaim.Registry
