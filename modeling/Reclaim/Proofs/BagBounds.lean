import Reclaim.Proofs.FreeContexts
import Reclaim.Proofs.NodeAccesses
import Reclaim.Proofs.RegistryCounts

set_option autoImplicit false

namespace Reclaim
variable {V : Type}

def Context.ScannedIfDue (c : Context) (g : Registry) : Prop :=
  c.config.isScanDue c.bag.size g.active.toNat = false ∨
    ∀ r ∈ c.bag.records, r.address ∈ g.protectedAddresses

namespace Context

theorem scan_kept (c : Context) (d : Domain) :
    ∀ r ∈ (c.scan d).2.bag.records, r.address ∈ d.registry.protectedAddresses := by
  intro r hr
  have hr : r ∈ (separate (fun r => (Snapshot.ofList d.registry.protectedAddresses).covers
      r.address) c.bag.records).1 := by
    simpa [scan, Bag.drainUnprotected_records] using hr
  exact (Snapshot.covers_ofList _ _).1 (separate_kept _ _ r hr)

theorem retire_scannedIfDue (c : Context) (d : Domain) (r : Retired) :
    (c.retire d r).2.1.ScannedIfDue d.registry := by
  let c₁ : Context := { c with bag := c.bag.push r }
  have hreg : (c₁.adopt d).2.registry = d.registry := c₁.registry_adopt d
  simp only [retire]
  split
  · refine .inr ?_
    rw [← hreg]
    exact scan_kept _ _
  · rename_i hdue
    refine .inl ?_
    rw [← hreg]
    exact Bool.eq_false_iff.2 hdue

end Context

namespace Site

/-- A thread whose context is not gone has one from here on. -/
theorem enter_live {s s' : Site} (h : s.enter = .ok s') (hp : s.presence ≠ .destroyed)
    (hfree : s.presence.IsFree) : ∃ c, s'.presence = .live c := by
  unfold enter at h
  split at h
  · obtain ⟨⟨c, d⟩, -, heq⟩ := ok_of_bind_ok h
    obtain rfl := Except.ok.inj heq
    exact ⟨c, rfl⟩
  · rename_i habsent
    obtain rfl := Except.ok.inj h
    cases hs : s.presence with
    | absent => exact absurd hs habsent
    | live c => exact ⟨c, rfl⟩
    | borrowed c => exact absurd hs (hfree c)
    | destroyed => exact absurd hs hp

theorem retire_scannedIfDue {s s' : Site} {r : Retired} {rs : List Retired}
    (h : s.retire r = .ok (rs, s')) (hp : s.presence ≠ .destroyed) (hfree : s.presence.IsFree) :
    ∃ c, s'.presence = .live c ∧ c.ScannedIfDue s'.domain.registry := by
  obtain ⟨s₁, hs₁, h⟩ := ok_of_bind_ok h
  obtain ⟨c, hc⟩ := enter_live hs₁ hp hfree
  rw [borrow_of_live hc] at h
  obtain ⟨-, rfl⟩ := Prod.mk.inj (Except.ok.inj h)
  refine ⟨_, rfl, ?_⟩
  have hscanned := c.retire_scannedIfDue s₁.domain r
  rwa [← (c.retire_spec s₁.domain r).1] at hscanned

end Site

namespace Registry

theorem length_protectedAddresses (g : Registry) :
    g.protectedAddresses.length = g.numbers.countP fun i => (g.target i).isSome :=
  List.length_filterMap_eq_countP ..

variable {g : Registry} {l : List Hazard}

theorem countP_isActive (ho : g.OwnedBy l) (hc : g.Counts l) :
    g.numbers.countP g.isActive = l.length := by
  have hperm : (g.numbers.filter g.isActive).Perm (l.map (·.record)) := by
    apply (List.perm_ext_iff_of_nodup (g.nodup_numbers.filter _) ho.distinct).2
    intro i
    rw [List.mem_filter, isActive_iff ho hc]
    refine ⟨And.right, fun hi => ⟨?_, hi⟩⟩
    obtain ⟨h, hh, rfl⟩ := List.mem_map.1 hi
    have hlt := (Array.getElem?_eq_some_iff.1 (ho.published h hh)).1
    simpa [numbers] using hlt
  rw [List.countP_eq_length_filter, hperm.length_eq, List.length_map]

/-- An inactive record protects nothing. -/
theorem countP_target_le (ho : g.OwnedBy l) :
    g.numbers.countP (fun i => (g.target i).isSome) ≤ g.numbers.countP g.isActive := by
  refine List.countP_mono_left fun i _ hi => ?_
  by_contra hidle
  rw [target_of_inactive ho (Bool.eq_false_iff.2 hidle)] at hi
  cases hi

end Registry

namespace Context.ScannedIfDue
variable {c : Context} {g : Registry} {l : List Hazard}

/-- Where the threshold fits into a word, so does the number of hazard pointers, and the counter
that the test for a scan reads is right. -/
theorem active_eq (ho : g.OwnedBy l) (hc : g.Counts l)
    (hfits : g.numbers.countP g.isActive * c.config.scanFactor.toNat < wordMax) :
    g.active.toNat = g.numbers.countP g.isActive := by
  have hfactor : 0 < c.config.scanFactor.toNat := UInt32.lt_iff_toNat_lt.1 c.config.scanFactor_pos
  have hlt : g.numbers.countP g.isActive < UInt64.size :=
    Nat.lt_of_le_of_lt (Nat.le_mul_of_pos_right _ hfactor)
      (Nat.lt_of_lt_of_le hfits (Nat.sub_le _ _))
  rw [Registry.countP_isActive ho hc] at hlt ⊢
  rw [hc.active, UInt64.toNat_ofNat_of_lt' hlt]

/-- As many records as there are in the bag are protected, and each hazard pointer protects one. -/
theorem size_le (h : ∀ r ∈ c.bag.records, r.address ∈ g.protectedAddresses)
    (hnodup : (c.bag.records.map (·.address)).Nodup) :
    c.bag.size ≤ g.numbers.countP fun i => (g.target i).isSome := by
  have hsub : c.bag.records.map (·.address) ⊆ g.protectedAddresses := by
    intro a ha
    obtain ⟨r, hr, rfl⟩ := List.mem_map.1 ha
    exact h r hr
  have hlength := (List.subperm_of_subset hnodup hsub).length_le
  rwa [List.length_map, g.length_protectedAddresses] at hlength

theorem bounded (h : c.ScannedIfDue g) (ho : g.OwnedBy l) (hc : g.Counts l)
    (hnodup : (c.bag.records.map (·.address)).Nodup)
    (hfits : g.numbers.countP g.isActive * c.config.scanFactor.toNat < wordMax) :
    c.bag.size < c.config.minRecords.toNat ∨
      c.bag.size * 100 ≤ g.numbers.countP g.isActive * c.config.scanFactor.toNat ∨
      ((∀ r ∈ c.bag.records, r.address ∈ g.protectedAddresses) ∧
        c.bag.size ≤ g.numbers.countP (fun i => (g.target i).isSome) ∧
        g.numbers.countP (fun i => (g.target i).isSome) ≤ g.numbers.countP g.isActive) := by
  rcases h with hdue | hkept
  · rw [active_eq ho hc hfits, Bool.eq_false_iff, ne_eq, Config.isScanDue_iff] at hdue
    omega
  · exact .inr (.inr ⟨hkept, size_le hkept hnodup, Registry.countP_target_le ho⟩)

end Context.ScannedIfDue

theorem World.records_subperm_bagged (w : World V) (t : ThreadId) :
    (w.thread t).presence.records.Subperm w.bagged := by
  have h := w.bagged_insert t { w.thread t with presence := .absent }
  simp only [Presence.records, List.append_nil] at h
  exact (List.sublist_append_right _ _).subperm.trans h.subperm

theorem World.Sound.nodup_bag {w : World V} {hs : List (Holding V)} (h : w.Sound hs)
    (t : ThreadId) :
    ((w.thread t).presence.records.map (·.address)).Nodup := by
  have hsub : (w.thread t).presence.records.Subperm (w.account hs) :=
    (w.records_subperm_bagged t).trans
      ((List.sublist_append_left _ _).trans (List.sublist_append_right _ _)).subperm
  obtain ⟨l, hperm, hsublist⟩ := hsub
  exact (hperm.map _).nodup_iff.1 ((hsublist.map _).nodup h.nodup_account)

namespace Run
variable {m : Run V}

/-- A thread that has a context, or gets one for it, retires a record, and what the retirement hands
back is not reclaimed yet. Then the bag of the thread has fewer records than a scan takes, or no
more than the scan factor allows, or all of them are protected, each by a hazard pointer of its
own. All this holds while the threshold of the scan fits into a word. -/
theorem Reachable.bag_bounded (h : m.Reachable)
    (hop : ∀ capacity names, m.control ≠ .perform (.abandon capacity names))
    (hretired : m.step.world.retirements ≠ m.world.retirements)
    (hpresence : (m.world.thread m.thread).presence ≠ .destroyed) :
    ∃ r rs fs c, m.step.world.retirements = r :: m.world.retirements ∧
      m.step.control = .resume ∧ m.step.stack = .reclaim rs :: fs ∧
      (m.step.world.thread m.thread).presence = .live c ∧
      let g := m.step.world.domain.registry
      let size := c.bag.size
      let active := g.numbers.countP g.isActive
      let protecting := g.numbers.countP fun i => (g.target i).isSome
      let threshold := active * c.config.scanFactor.toNat
      threshold < wordMax →
        g.active.toNat = active ∧
        (size < c.config.minRecords.toNat ∨ size * 100 ≤ threshold ∨
          ((∀ x ∈ c.bag.records, x.address ∈ g.protectedAddresses) ∧
            size ≤ protecting ∧ protecting ≤ active)) ∧
        size ≤ max (c.config.minRecords.toNat - 1) (max (threshold / 100) active) := by
  have hnext : m.step.Reachable := .step h trivial
  obtain ⟨fs, rest, hstack, hretires⟩ := m.step_retires
  cases hretires with
  | nothing hsame => exact absurd hsame hretired
  | several capacity names hcontrol => exact absurd hcontrol (hop capacity names)
  | one w r rs s below hthreads hsame _ hretire hstep hfs hcontrol =>
    have hbefore : (w.site m.thread).presence = (m.world.thread m.thread).presence := by
      rw [World.site, World.thread, hthreads]
      rfl
    obtain ⟨c, hc, hscanned⟩ :=
      Site.retire_scannedIfDue hretire (hbefore ▸ hpresence) (hbefore ▸ h.free m.thread)
    have hlive : (m.step.world.thread m.thread).presence = .live c := by
      rw [hstep, ← hc]
      exact w.presence_setSite m.thread s
    have hregistry : m.step.world.domain.registry = s.domain.registry := by
      rw [hstep]
      rfl
    rw [← hregistry] at hscanned
    have hnodup := hnext.sound.nodup_bag m.thread
    rw [hlive] at hnodup
    refine ⟨r, rs, below ++ rest, c, ?_, hcontrol, by rw [hstack, hfs]; rfl, hlive,
      fun hfits => ?_⟩
    · rw [hstep, ← hsame]
      rfl
    · have hbounds := hscanned.bounded hnext.ownedBy hnext.counts hnodup hfits
      refine ⟨Context.ScannedIfDue.active_eq hnext.ownedBy hnext.counts hfits, hbounds, ?_⟩
      omega

/-- A protected record is in the bag of a thread, another record was abandoned, and the thread is
about to retire a third. -/
def crowding : Run Nat := idle.following
  (tell 0 9 [.install { scanFactor := some 1 }, .create "guarded" [], .create "left" [],
    .create "last" [], .newHazard "hazard" (some "guarded"), .newHazard "spare" none,
    .retire "guarded" .boxed, .abandon 4 [some "left"]] ++
  tell 0 0 [.retire "last" .boxed])

theorem crowding_reachable : crowding.Reachable :=
  .following (.refl trivial) _ (by decide +kernel)

theorem crowding_bounded :
    crowding.Reachable ∧ (crowding.world.thread 0).presence.records.length = 1 ∧
      crowding.world.domain.abandoned.records.length = 1 ∧
      ∃ c, (crowding.step.world.thread 0).presence = .live c ∧
        crowding.step.world.domain.registry.active.toNat = 2 ∧
        c.bag.size ≤ max (0 - 1) (max (2 * 1 / 100) 2) := by
  have hbag : (crowding.world.thread 0).presence.records.length = 1 := by decide +kernel
  have hpresence : (crowding.world.thread 0).presence ≠ .destroyed := by
    intro hdestroyed
    rw [hdestroyed] at hbag
    cases hbag
  obtain ⟨-, -, -, c, -, -, -, hlive, hbounded⟩ :=
    crowding_reachable.bag_bounded nofun (by decide +kernel) hpresence
  have hconfig : (crowding.step.world.thread 0).presence.context?.map
      (fun c => (c.config.scanFactor.toNat, c.config.minRecords.toNat)) = some (1, 0) := by
    decide +kernel
  have hactive : crowding.step.world.domain.registry.numbers.countP
      crowding.step.world.domain.registry.isActive = 2 := by decide +kernel
  rw [show (crowding.step.world.thread 0).presence = .live c from hlive] at hconfig
  obtain ⟨hfactor, hmin⟩ := Prod.mk.inj (Option.some.inj hconfig)
  dsimp only at hbounded
  rw [hactive, hfactor, hmin] at hbounded
  obtain ⟨hcounter, -, hsize⟩ := hbounded (by decide)
  exact ⟨crowding_reachable, hbag, by decide +kernel, c, hlive, hcounter, hsize⟩

end Run
end Reclaim
