import Reclaim.Interleaved.Protection
import Reclaim.Proofs.RegistryRecords

set_option autoImplicit false

namespace Reclaim.Interleaved

namespace Guarding

def record? : Guarding → Option RecordId
  | searching => none
  | idle i | loaded i _ _ | published i _ _ | holding i _ | withdrawn i => some i

def announced? : Guarding → Option (Option Address)
  | published _ _ a | holding _ a => some a
  | _ => none

end Guarding

structure Guarded (registry : Registry) (hazards : Table HazardId Guarding) : Prop where
  distinct : ∀ (h h' : HazardId) (g g' : Guarding) (i : RecordId), hazards.get? h = some g →
    hazards.get? h' = some g' → g.record? = some i → g'.record? = some i → h = h'
  active : ∀ (h : HazardId) (g : Guarding) (i : RecordId), hazards.get? h = some g →
    g.record? = some i → registry.isActive i = true
  announced : ∀ (h : HazardId) (g : Guarding) (i : RecordId) (a : Option Address),
    hazards.get? h = some g → g.record? = some i → g.announced? = some a → registry.target i = a

namespace Guarded
variable {registry registry' : Registry} {hazards : Table HazardId Guarding} {h : HazardId}
  {g old : Guarding} {i : RecordId}

theorem not_owned (hs : Guarded registry hazards) (hget : hazards.get? h = some old)
    (hi : old.record? = some i) (h' : HazardId) (g' : Guarding) (hne : h' ≠ h)
    (hg' : hazards.get? h' = some g') : g'.record? ≠ some i := fun hj =>
  hne (hs.distinct h' h g' old i hg' hget hj hi)

/-- Some hazard pointers keep what they have, and so do their records. -/
theorem keep {hazards' : Table HazardId Guarding} (hs : Guarded registry hazards)
    (hkept : ∀ h g, hazards'.get? h = some g → hazards.get? h = some g)
    (hrecords : ∀ h g j, hazards'.get? h = some g → g.record? = some j →
      registry'.records[j]? = registry.records[j]?) : Guarded registry' hazards' where
  distinct h₁ h₂ g₁ g₂ j hg₁ hg₂ :=
    hs.distinct h₁ h₂ g₁ g₂ j (hkept h₁ g₁ hg₁) (hkept h₂ g₂ hg₂)
  active h₁ g₁ j hg₁ hj := by
    rw [Registry.isActive, hrecords h₁ g₁ j hg₁ hj]
    exact hs.active h₁ g₁ j (hkept h₁ g₁ hg₁) hj
  announced h₁ g₁ j a hg₁ hj ha := by
    rw [Registry.target, hrecords h₁ g₁ j hg₁ hj]
    exact hs.announced h₁ g₁ j a (hkept h₁ g₁ hg₁) hj ha

/-- One hazard pointer moves on, and of the records that have an owner only its own changes. -/
theorem put (hs : Guarded registry hazards)
    (hactive : ∀ i, g.record? = some i → registry'.isActive i = true)
    (hannounced : ∀ i a, g.record? = some i → g.announced? = some a → registry'.target i = a)
    (hown : ∀ (j : RecordId) (h' : HazardId) (g' : Guarding), h' ≠ h →
      hazards.get? h' = some g' → g'.record? = some j →
        g.record? ≠ some j ∧ registry'.records[j]? = registry.records[j]?) :
    Guarded registry' (hazards.insert h g) := by
  have hget {h' : HazardId} {g' : Guarding} (hg : (hazards.insert h g).get? h' = some g') :
      (h' = h ∧ g' = g) ∨ (h' ≠ h ∧ (hazards.erase h).get? h' = some g') := by
    rw [Table.get?_insert] at hg
    split at hg
    · rename_i hh
      exact .inl ⟨hh, (Option.some.inj hg).symm⟩
    · rename_i hh
      exact .inr ⟨hh, (Table.get?_erase_of_ne hh).trans hg⟩
  have hold {h' : HazardId} {g' : Guarding} (hg : (hazards.erase h).get? h' = some g') :
      h' ≠ h ∧ hazards.get? h' = some g' := by
    rw [Table.get?_erase] at hg
    split at hg
    · cases hg
    · rename_i hh
      exact ⟨hh, hg⟩
  have hrest : Guarded registry' (hazards.erase h) :=
    hs.keep (fun _ _ hg => (hold hg).2) fun h₁ g₁ j hg hj =>
      (hown j h₁ g₁ (hold hg).1 (hold hg).2 hj).2
  refine ⟨?_, ?_, ?_⟩
  · intro h₁ h₂ g₁ g₂ j hg₁ hg₂ hj₁ hj₂
    rcases hget hg₁ with ⟨hh₁, rfl⟩ | ⟨hne₁, hr₁⟩
    · rcases hget hg₂ with ⟨hh₂, -⟩ | ⟨hne₂, hr₂⟩
      · exact hh₁.trans hh₂.symm
      · exact absurd hj₁ (hown j h₂ g₂ hne₂ (hold hr₂).2 hj₂).1
    · rcases hget hg₂ with ⟨-, rfl⟩ | ⟨-, hr₂⟩
      · exact absurd hj₂ (hown j h₁ g₁ hne₁ (hold hr₁).2 hj₁).1
      · exact hrest.distinct h₁ h₂ g₁ g₂ j hr₁ hr₂ hj₁ hj₂
  · intro h₁ g₁ j hg₁ hj
    rcases hget hg₁ with ⟨-, rfl⟩ | ⟨-, hg₁⟩
    · exact hactive j hj
    · exact hrest.active h₁ g₁ j hg₁ hj
  · intro h₁ g₁ j a hg₁ hj ha
    rcases hget hg₁ with ⟨-, rfl⟩ | ⟨-, hg₁⟩
    · exact hannounced j a hj ha
    · exact hrest.announced h₁ g₁ j a hg₁ hj ha

/-- A step of an acquisition that changes no record. -/
theorem advance (hs : Guarded registry hazards) (hget : hazards.get? h = some old)
    (hrecord : g.record? = old.record?)
    (hannounced : ∀ a, g.announced? = some a → old.announced? = some a) :
    Guarded registry (hazards.insert h g) := by
  refine hs.put ?_ ?_ ?_
  · intro i hi
    exact hs.active h old i hget (hrecord ▸ hi)
  · intro i a hi ha
    exact hs.announced h old i a hget (hrecord ▸ hi) (hannounced a ha)
  · intro j h' g' hne hg' hj
    exact ⟨fun hi => hs.not_owned hget (hrecord ▸ hi) h' g' hne hg' hj, rfl⟩

theorem advance_silent (hs : Guarded registry hazards) (hget : hazards.get? h = some old)
    (hrecord : g.record? = old.record?) (hsilent : g.announced? = none) :
    Guarded registry (hazards.insert h g) :=
  hs.advance hget hrecord (by simp [hsilent])

/-- The record of the hazard pointer announces something else from now on. -/
theorem publish (hs : Guarded registry hazards) (hget : hazards.get? h = some old)
    (hold : old.record? = some i) (g : Guarding) (a : Option Address)
    (hrecord : g.record? = some i) (hannounced : ∀ b, g.announced? = some b → a = b) :
    Guarded (registry.protect i a) (hazards.insert h g) := by
  have hactive := hs.active h old i hget hold
  obtain ⟨r, hr, hra⟩ := Option.any_eq_true .. |>.1 hactive
  have hself : (registry.protect i a).records[i]? = some { r with target := a } := by
    rw [Registry.records_protect, if_pos rfl, hr, Option.map_some]
  refine hs.put ?_ ?_ ?_
  · intro j hj
    obtain rfl := Option.some.inj (hrecord.symm.trans hj)
    rw [Registry.isActive, hself]
    exact hra
  · intro j b hj hb
    obtain rfl := Option.some.inj (hrecord.symm.trans hj)
    rw [Registry.target, hself]
    exact hannounced b hb
  · intro j h' g' hne hg' hj
    have hij : i ≠ j := by
      rintro rfl
      exact hs.not_owned hget hold h' g' hne hg' hj
    refine ⟨fun hi => hij (Option.some.inj (hrecord.symm.trans hi)), ?_⟩
    rw [Registry.records_protect, if_neg hij]

theorem publish_silent (hs : Guarded registry hazards) (hget : hazards.get? h = some old)
    (hold : old.record? = some i) (g : Guarding) (a : Option Address)
    (hrecord : g.record? = some i) (hsilent : g.announced? = none) :
    Guarded (registry.protect i a) (hazards.insert h g) :=
  hs.publish hget hold g a hrecord (by simp [hsilent])

/-- A record that was free, or that did not exist, is taken by a hazard pointer without one. -/
theorem acquire (hs : Guarded registry hazards) (hactive : registry'.isActive i = true)
    (hfree : registry.isActive i = false)
    (hothers : ∀ j, j ≠ i → registry'.records[j]? = registry.records[j]?) :
    Guarded registry' (hazards.insert h (.idle i)) := by
  refine hs.put ?_ ?_ ?_
  · rintro j ⟨⟩
    exact hactive
  · rintro j a - ⟨⟩
  · intro j h' g' _ hg' hj
    have hij : j ≠ i := by
      rintro rfl
      simp [hs.active h' g' j hg' hj] at hfree
    exact ⟨fun hi => hij (Option.some.inj hi).symm, hothers j hij⟩

theorem erase (hs : Guarded registry hazards) (hget : hazards.get? h = some old)
    (hold : old.record? = some i)
    (hothers : ∀ j, j ≠ i → registry'.records[j]? = registry.records[j]?) :
    Guarded registry' (hazards.erase h) := by
  have hget' {h' : HazardId} {g' : Guarding} (hg : (hazards.erase h).get? h' = some g') :
      h' ≠ h ∧ hazards.get? h' = some g' := by
    rw [Table.get?_erase] at hg
    split at hg
    · cases hg
    · rename_i hh
      exact ⟨hh, hg⟩
  refine hs.keep (fun _ _ hg => (hget' hg).2) fun h' g' j hg hj => hothers j ?_
  rintro rfl
  exact hs.not_owned hget hold h' g' (hget' hg).1 (hget' hg).2 hj

theorem guard {s : ProtectionState} (hs : Guarded s.registry s.hazards) (h : HazardId)
    (m : GuardMove) : Guarded (s.guard h m).registry (s.guard h m).hazards := by
  unfold ProtectionState.guard
  split
  · exact hs.put (by rintro _ ⟨⟩) (by rintro _ _ ⟨⟩) fun j h' g' _ hg' hj =>
      ⟨by rintro ⟨⟩, rfl⟩
  · rename_i i _
    split
    · rename_i registry hcapture
      have hacquired := Registry.acquired_of_tryCapture hcapture
      obtain ⟨target, hself, hold⟩ := hacquired.records_self
      refine hs.acquire ?_ ?_ fun j hj => hacquired.records_ne hj
      · change registry.isActive i = true
        simp [Registry.isActive, hself]
      cases hr : s.registry.records[i]? with
      | none => simp [Registry.isActive, hr]
      | some r => simp [Registry.isActive, hr, (hold r hr).1]
    · exact hs
  · have hself : s.registry.allocate.2.isActive s.registry.records.size = true := by
      simp [Registry.isActive, Registry.allocate]
    refine hs.acquire hself (by simp [Registry.isActive]) fun j hj => ?_
    change s.registry.allocate.2.records[j]? = s.registry.records[j]?
    simp [Registry.allocate, Array.getElem?_push, hj]
  · rename_i hget
    exact hs.advance_silent hget rfl rfl
  · rename_i hget
    exact hs.advance_silent hget rfl rfl
  · rename_i i c a hget
    exact hs.publish hget rfl (.published i c a) a rfl fun _ => Option.some.inj
  · rename_i i c a hget
    split
    · exact hs.advance hget rfl fun _ => id
    · exact hs.advance_silent hget rfl rfl
  · rename_i i a hget
    exact hs.publish_silent hget rfl (.idle i) a rfl rfl
  · rename_i i _ a hget
    exact hs.publish_silent hget rfl (.idle i) _ rfl rfl
  · rename_i i hget
    exact hs.publish_silent hget rfl (.idle i) none rfl rfl
  · rename_i i _ hget
    exact hs.publish_silent hget rfl (.idle i) none rfl rfl
  · rename_i i hget
    exact hs.publish_silent hget rfl (.withdrawn i) none rfl rfl
  · rename_i i _ hget
    exact hs.publish_silent hget rfl (.withdrawn i) none rfl rfl
  · rename_i i hget
    split
    · rename_i registry hrelease
      refine hs.erase hget rfl fun j hj => ?_
      rw [Registry.records_release hrelease, if_neg hj.symm]
    · exact hs
  · exact hs

end Guarded
end Reclaim.Interleaved
