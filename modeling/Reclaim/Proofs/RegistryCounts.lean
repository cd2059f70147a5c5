import Reclaim.Proofs.Soundness

set_option autoImplicit false

namespace Reclaim
variable {V : Type}

/-- The counters are right, and no active record is without an owner in the list. -/
structure Registry.Counts (g : Registry) (l : List Hazard) : Prop where
  owned : ∀ i, g.isActive i = true → i ∈ l.map (·.record)
  active : g.active = UInt64.ofNat l.length
  allocated : g.allocated = UInt64.ofNat g.records.size

namespace Registry

theorem isActive_congr {g g' : Registry} {i : RecordId} (h : g'.records[i]? = g.records[i]?) :
    g'.isActive i = g.isActive i := by
  rw [isActive, h]
  rfl

theorem Acquired.active {g g' : Registry} {i : RecordId} (h : g.Acquired i g') :
    g'.active = g.active + 1 := by
  cases h <;> rfl

theorem size_le_of_acquired {g g' : Registry} {i : RecordId} (h : g.Acquired i g') :
    g.records.size ≤ g'.records.size := by
  cases h with
  | captured => simp [update]
  | allocated => simp [allocate]

theorem size_of_release {g g' : Registry} {i : RecordId} (h : g.release i = .ok g') :
    g'.records.size = g.records.size ∧ g'.active = g.active - 1 ∧ g'.allocated = g.allocated := by
  unfold release at h
  split at h
  · obtain rfl := Except.ok.inj h
    exact ⟨by simp [deactivate, update], rfl, rfl⟩
  · simp at h

namespace Counts
variable {g g' : Registry} {l l' : List Hazard} {h : Hazard} {i : RecordId}

theorem perm (hc : g.Counts l) (hp : l.Perm l') : g.Counts l' where
  owned i hi := (hp.map _).mem_iff.1 (hc.owned i hi)
  active := hp.length_eq ▸ hc.active
  allocated := hc.allocated

theorem acquire (hc : g.Counts l) (ha : g.Acquired i g') : g'.Counts ({ record := i } :: l) where
  owned j hj := by
    by_cases hij : j = i
    · exact List.mem_cons.2 (.inl hij)
    · rw [isActive_congr (ha.records_ne hij)] at hj
      exact List.mem_cons_of_mem _ (hc.owned j hj)
  active := by
    rw [ha.active, hc.active, List.length_cons, UInt64.ofNat_add]
    rfl
  allocated := by
    cases ha with
    | captured => simpa [update] using hc.allocated
    | allocated => simp [allocate, hc.allocated]

theorem publish (hc : g.Counts (h :: l)) (a : Option Address) :
    (g.protect h.record a).Counts ({ h with target := a } :: l) where
  owned j hj := by
    apply hc.owned j
    rw [isActive, records_protect] at hj
    split at hj
    · simpa [isActive, Option.any_map] using hj
    · exact hj
  active := hc.active
  allocated := by simpa [protect, update] using hc.allocated

theorem release (hc : g.Counts (h :: l)) (hr : g.release h.record = .ok g') : g'.Counts l where
  owned j hj := by
    rw [isActive, records_release hr] at hj
    split at hj
    · simp [Option.any_map] at hj
    · rename_i hne
      exact (List.mem_cons.1 (hc.owned j hj)).resolve_left fun he => hne he.symm
  active := by
    rw [(size_of_release hr).2.1, hc.active, List.length_cons, UInt64.ofNat_add]
    simp
  allocated := by
    rw [(size_of_release hr).2.2, (size_of_release hr).1]
    exact hc.allocated

end Counts
section owned
variable {g : Registry} {l : List Hazard}

theorem isActive_iff (ho : g.OwnedBy l) (hc : g.Counts l) (i : RecordId) :
    g.isActive i = true ↔ i ∈ l.map (·.record) := by
  refine ⟨hc.owned i, fun hi => ?_⟩
  obtain ⟨h, hh, rfl⟩ := List.mem_map.1 hi
  rw [isActive, ho.published h hh]
  rfl

theorem target_of_mem (ho : g.OwnedBy l) {h : Hazard} (hh : h ∈ l) :
    g.target h.record = h.target := by
  rw [target, ho.published h hh]
  rfl

theorem target_of_inactive (ho : g.OwnedBy l) {i : RecordId} (hi : g.isActive i = false) :
    g.target i = none := by
  cases hr : g.records[i]? with
  | none => rw [target, hr, Option.bind_none]
  | some r =>
    have hactive : r.active = false := by simpa [isActive, hr] using hi
    rw [target, hr, Option.bind_some, ho.idle i r hr hactive]

/-- The owner of a record, looked up among the live hazard pointers, protects what the record
announces. -/
theorem target_eq_find (ho : g.OwnedBy l) (hc : g.Counts l) (i : RecordId) :
    g.target i = (l.find? (·.record == i)).bind (·.target) := by
  cases hfind : l.find? (·.record == i) with
  | none =>
    apply target_of_inactive ho
    rw [Bool.eq_false_iff]
    intro hactive
    obtain ⟨h, hh, rfl⟩ := List.mem_map.1 ((isActive_iff ho hc i).1 hactive)
    simpa using List.find?_eq_none.1 hfind h hh
  | some h =>
    have hrecord : h.record = i := by simpa using List.find?_some hfind
    rw [Option.bind_some, ← hrecord]
    exact target_of_mem ho (List.mem_of_find?_eq_some hfind)

theorem nodup_numbers (g : Registry) : g.numbers.Nodup :=
  List.nodup_reverse.2 List.nodup_range

theorem protectedAddresses_perm (ho : g.OwnedBy l) (hc : g.Counts l) :
    g.protectedAddresses.Perm (l.filterMap (·.target)) := by
  have hactive : (g.numbers.filter g.isActive).Perm (l.map (·.record)) := by
    apply (List.perm_ext_iff_of_nodup (g.nodup_numbers.filter _) ho.distinct).2
    intro i
    rw [List.mem_filter, isActive_iff ho hc]
    refine ⟨And.right, fun hi => ⟨?_, hi⟩⟩
    obtain ⟨h, hh, rfl⟩ := List.mem_map.1 hi
    have hlt := (Array.getElem?_eq_some_iff.1 (ho.published h hh)).1
    simpa [numbers] using hlt
  have hskip : (g.numbers.filter g.isActive).filterMap g.target = g.protectedAddresses := by
    rw [List.filterMap_filter]
    refine List.filterMap_congr fun i _ => ?_
    split
    · rfl
    · rename_i hi
      exact (target_of_inactive ho (Bool.eq_false_iff.2 hi)).symm
  calc
    g.protectedAddresses.Perm ((l.map (·.record)).filterMap g.target) :=
      hskip ▸ hactive.filterMap g.target
    _ = l.filterMap (·.target) := by
      rw [List.filterMap_map]
      exact List.filterMap_congr fun h hh => target_of_mem ho hh

end owned
end Registry

namespace Effect
variable {lossy : Prop} {g : Registry} {w w' : World V} {hs hs' : List (Holding V)}

theorem counts (e : Effect lossy g w hs w' hs') (h : w.Sound hs)
    (hc : w.domain.registry.Counts (w.hazardsWith hs)) :
    w'.domain.registry.Counts (w'.hazardsWith hs') := by
  cases e with
  | reorder hp => exact hc.perm ((hp.filterMap _).append_left _)
  | lose hlossy hlost =>
    rename_i k
    cases hk : k.hazard? with
    | none => rwa [World.hazardsWith, List.filterMap_cons_none hk] at hc
    | some x =>
      -- The record of a live hazard pointer is active, and its release succeeds.
      have hmem : x ∈ w.hazardsWith (k :: hs') := by simp [World.hazardsWith, hk]
      have hactive := (Registry.isActive_iff h.owned hc x.record).2 (List.mem_map_of_mem hmem)
      rw [hlost x hk] at hactive
      cases hactive
  | fault hk hlacks => exact absurd hlacks (h.not_lacks _ hk)
  | settle t s hreg => exact hreg ▸ hc
  | scan rs ds ls t s hreg =>
    rw [World.hazardsWith, Holding.filterMap_scan _ (fun _ => rfl) (fun _ => rfl) rs ds ls]
    exact hreg ▸ hc
  | abandon b =>
    rw [World.hazardsWith, Holding.filterMap_map_append .unbagged _ fun _ => rfl] at hc
    exact hc
  | acquire t i s hacquired => exact (hc.acquire hacquired).perm List.perm_middle.symm
  | publish a => exact ((hc.perm List.perm_middle).publish a).perm List.perm_middle.symm
  | republish name a hget =>
    rename_i h
    have hold := (Table.values_erase hget).append_right (hs.filterMap Holding.hazard?)
    have hnew := (Table.values_insert w.hazards name { h with target := a }).append_right
      (hs.filterMap Holding.hazard?)
    exact ((hc.perm hold).publish a).perm hnew.symm
  | giveName name hget =>
    refine hc.perm (List.perm_middle.trans ?_)
    exact ((Table.values_insert_new hget _).append_right _).symm
  | takeName name hget =>
    refine hc.perm (((Table.values_erase hget).append_right _).trans ?_)
    exact List.perm_middle.symm
  | release registry hrelease => exact (hc.perm List.perm_middle).release hrelease
  | unlink name q q' a =>
    rw [World.noteUnlinked_eq]
    exact hc
  | configure | storeCells | setThread | note | createRecord | createQueue | condemn | spare
  | declare | enter | depart | allocate | link | count | setWaiter | help | begin | claimFront
  | findEmpty | claimDetached | missDetached | giveUp | finish | destroyObject | destroyNode
  | free | freed | vacant | drop | discard => exact hc

/-- Records are added and never removed. -/
theorem records_size_le (e : Effect lossy g w hs w' hs') :
    w.domain.registry.records.size ≤ w'.domain.registry.records.size := by
  cases e with
  | settle t s hreg => exact hreg ▸ Nat.le_refl _
  | scan rs ds ls t s hreg => exact hreg ▸ Nat.le_refl _
  | acquire t i s hacquired => exact Registry.size_le_of_acquired hacquired
  | publish | republish =>
    simp [World.publish, World.mapRegistry, Registry.protect, Registry.update]
  | release registry hrelease => exact Nat.le_of_eq (Registry.size_of_release hrelease).1.symm
  | unlink name q q' a =>
    rw [World.noteUnlinked_eq]
    exact Nat.le_refl _
  | reorder | lose | fault | abandon | giveName | takeName | configure | storeCells | setThread
  | note | createRecord | createQueue | condemn | spare | declare | enter | depart | allocate
  | link | count | setWaiter | help | begin | claimFront | findEmpty | claimDetached
  | missDetached | giveUp | finish | destroyObject | destroyNode | free | freed | vacant | drop
  | discard =>
    exact Nat.le_refl _

end Effect

namespace Run
variable {m n : Run V}

theorem Reachable.counts (h : m.Reachable) : m.world.domain.registry.Counts m.hazards := by
  have hall : m.world.Sound m.holdings ∧
      m.world.domain.registry.Counts (m.world.hazardsWith m.holdings) := by
    refine @of_effects V (fun w hs => w.Sound hs ∧
      w.domain.registry.Counts (w.hazardsWith hs)) ?_ ?_ m h
    · refine ⟨World.sound_empty, ?_, ?_, rfl⟩
      · simp [Registry.isActive]
      · simp [World.hazardsWith, Table.values_empty]
    · exact fun _ _ _ _ _ _ e ih => ⟨e.sound ih.1, e.counts ih.1 ih.2⟩
  exact hall.2

/-- The list of records only grows, at its front. -/
theorem Reaches.numbers_suffix {P : Run V → Prop} (h : Reaches P m n) :
    m.world.domain.registry.numbers <:+ n.world.domain.registry.numbers := by
  have hsize : m.world.domain.registry.records.size ≤ n.world.domain.registry.records.size := by
    have hmono {lossy : Prop} {g : Registry} {w w' : World V} {hs hs' : List (Holding V)}
        (e : Effects lossy g w hs w' hs') :
        w.domain.registry.records.size ≤ w'.domain.registry.records.size :=
      e.induct (P := fun w' _ => w.domain.registry.records.size ≤ w'.domain.registry.records.size)
        (fun _ _ _ _ e ih => Nat.le_trans ih e.records_size_le) (Nat.le_refl _)
    induction h with
    | refl => exact Nat.le_refl _
    | step _ _ ih => exact Nat.le_trans ih (hmono (step_effects _))
    | next i _ ho _ _ ih => exact Nat.le_trans ih (hmono (begin_effects _ i False {}))
  obtain ⟨k, hk⟩ := Nat.exists_eq_add_of_le hsize
  rw [Registry.numbers, Registry.numbers, hk, List.range_add, List.reverse_append]
  exact List.suffix_append _ _

/-- What the live hazard pointers are says what the registry is: each owns an active record of its
own, no other record is active or protects anything, and the counters are right. Records are added
at the front of the list and stay there. Work that ends where it began, by an answer or a panic,
leaves the number of active records as it was but for the hazard pointers that were named or
dropped on the way. -/
theorem Reachable.registry_follows_hazards (hm : m.Reachable)
    (hn : Reaches (fun _ => True) m n) :
    let g := n.world.domain.registry
    (n.hazards.map (·.record)).Nodup ∧
      (∀ i, g.isActive i = true ↔ ∃ h ∈ n.hazards, h.record = i) ∧
      (∀ i, g.isActive i = false → g.target i = none) ∧
      (∀ h ∈ n.hazards, g.target h.record = h.target) ∧
      g.active = UInt64.ofNat n.hazards.length ∧
      g.allocated = UInt64.ofNat g.numbers.length ∧
      m.world.domain.registry.numbers <:+ g.numbers ∧
      g.protectedAddresses =
        g.numbers.filterMap (fun i => (n.hazards.find? (·.record == i)).bind (·.target)) ∧
      g.protectedAddresses.Perm (n.hazards.filterMap (·.target)) ∧
      (m.stack = n.stack →
        g.active + UInt64.ofNat m.world.hazards.values.length =
          m.world.domain.registry.active + UInt64.ofNat n.world.hazards.values.length) := by
  have hreach : n.Reachable := Reaches.trans hm hn
  have ho := hreach.ownedBy
  have hc := hreach.counts
  refine ⟨ho.distinct, ?_, ?_, ?_, hc.active, ?_, hn.numbers_suffix, ?_, ?_, ?_⟩
  · intro i
    rw [Registry.isActive_iff ho hc, List.mem_map]
  · exact fun i => Registry.target_of_inactive ho
  · exact fun h => Registry.target_of_mem ho
  · rw [hc.allocated, Registry.numbers, List.length_reverse, List.length_range]
  · exact List.filterMap_congr fun i _ => Registry.target_eq_find ho hc i
  · exact Registry.protectedAddresses_perm ho hc
  · intro hstack
    have hholdings : m.holdings = n.holdings := by rw [holdings, holdings, hstack]
    rw [hc.active, hm.counts.active, ← UInt64.ofNat_add, ← UInt64.ofNat_add, hazards, hazards,
      hholdings, List.length_append, List.length_append]
    congr 1
    omega

/-- A removal is about to begin in which the destructor of another record creates a hazard pointer
and panics. -/
def bursting : Run Nat := idle.following
  (tell 0 9 [.createQueue "queue" .yield, .onQueue "queue" (.enqueue 5 []),
    .onQueue "queue" (.enqueue 6 []),
    .create "record" [⟨none, .newHazard "kept" none⟩, ⟨none, .panic "burst"⟩],
    .newHazard "hazard" (some "record"), .retire "record" .boxed, .dropHazard "hazard"] ++
  tell 0 0 [.onQueue "queue" .tryDequeue])

theorem bursting_reachable : bursting.Reachable :=
  .following (.refl trivial) _ (by decide +kernel)

theorem bursting_unwound :
    bursting.Reachable ∧ Reaches (fun _ => True) bursting (bursting.complete 40) ∧
      ¬ (bursting.complete 40).IsCalm ∧
      bursting.hazards = [] ∧ (bursting.complete 6).hazards.map (·.record) = [1, 0] ∧
      (bursting.complete 40).hazards.map (·.record) = [1] ∧
      (bursting.complete 40).world.domain.registry.active + UInt64.ofNat 0 =
        bursting.world.domain.registry.active + UInt64.ofNat 1 := by
  have hn : Reaches (fun _ => True) bursting (bursting.complete 40) :=
    .complete (.refl trivial) 40 fun _ _ => trivial
  have hstack : bursting.stack = (bursting.complete 40).stack :=
    (stack_of_outcome (by decide +kernel)).symm
  have hnamed : bursting.world.hazards.values.length = 0 ∧
      (bursting.complete 40).world.hazards.values.length = 1 := by decide +kernel
  have h := (bursting_reachable.registry_follows_hazards hn).2.2.2.2.2.2.2.2.2 hstack
  rw [hnamed.1, hnamed.2] at h
  exact ⟨bursting_reachable, hn, by decide +kernel, by decide +kernel, by decide +kernel,
    by decide +kernel, h⟩

end Run
end Reclaim
