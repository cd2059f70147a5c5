import Reclaim.Proofs.RecordedEvents
import Reclaim.Proofs.RegistryCounts

/-!
The registry never has more records than were needed at once. Which records had a live hazard
pointer at which moment is read off the history, so that the peak counts also those hazard
pointers that come and go within one step. A record is allocated only at a new peak, whatever the
threads have in their caches.
-/

set_option autoImplicit false

namespace Reclaim
variable {V : Type}

namespace Event

/-- The records that have a live hazard pointer after the events, the last one of which comes
first. -/
def owners : List (Event V) → List RecordId
  | [] => []
  | .hazardCreated i :: l => i :: owners l
  | .hazardDropped i :: l => (owners l).erase i
  | _ :: l => owners l

/-- The greatest number of hazard pointers that were alive at the same time. -/
def peak : List (Event V) → Nat
  | [] => 0
  | e :: l => max (owners (e :: l)).length (peak l)

theorem length_owners_le_peak (l : List (Event V)) : (owners l).length ≤ peak l := by
  cases l with
  | nil => exact Nat.le_refl 0
  | cons e l => exact Nat.le_max_left _ _

theorem peak_le_of_suffix {l l' : List (Event V)} (h : l' <:+ l) : peak l' ≤ peak l := by
  obtain ⟨es, rfl⟩ := h
  induction es with
  | nil => exact Nat.le_refl _
  | cons e es ih => exact Nat.le_trans ih (Nat.le_max_right _ _)

/-- The peak was there at some moment. -/
theorem exists_length_owners_eq_peak (l : List (Event V)) :
    ∃ l', l' <:+ l ∧ (owners l').length = peak l := by
  induction l with
  | nil => exact ⟨[], List.suffix_rfl, rfl⟩
  | cons e l ih =>
    rcases Nat.le_total (peak l) (owners (e :: l)).length with hle | hle
    · exact ⟨e :: l, List.suffix_rfl, (Nat.max_eq_left hle).symm⟩
    · obtain ⟨l', hl', hlength⟩ := ih
      exact ⟨l', hl'.trans (List.suffix_cons _ _), hlength.trans (Nat.max_eq_right hle).symm⟩

theorem peak_dropped (i : RecordId) (l : List (Event V)) : peak (.hazardDropped i :: l) = peak l :=
  Nat.max_eq_right (Nat.le_trans List.length_erase_le (length_owners_le_peak l))

/-- The record of a new hazard pointer had none before. It is a new record only if there was a
hazard pointer for every record there was. -/
def ReusesRecords (l : List (Event V)) : Prop :=
  ∀ i l', .hazardCreated i :: l' <:+ l →
    i ∉ owners l' ∧ i ≤ peak l' ∧ (i = peak l' → ∀ j < peak l', j ∈ owners l')

theorem ReusesRecords.cons {l : List (Event V)} {e : Event V} (h : ReusesRecords l)
    (he : ∀ i, e = .hazardCreated i →
      i ∉ owners l ∧ i ≤ peak l ∧ (i = peak l → ∀ j < peak l, j ∈ owners l)) :
    ReusesRecords (e :: l) := by
  intro i l' hsuffix
  rcases List.suffix_cons_iff.1 hsuffix with heq | hsuffix
  · obtain ⟨rfl, rfl⟩ := List.cons.inj heq
    exact he i rfl
  · exact h i l' hsuffix

def isOfHazard : Event V → Bool
  | .hazardCreated _ | .hazardDropped _ => true
  | _ => false

theorem isOfHazard_of_isVisible {e : Event V} (h : e.isVisible = true) : e.isOfHazard = false := by
  cases e with
  | hazardCreated | hazardDropped => cases h
  | _ => rfl

section others
variable {es : List (Event V)} (h : ∀ e ∈ es, e.isOfHazard = false) (l : List (Event V))
include h

theorem owners_append : owners (es ++ l) = owners l := by
  induction es with
  | nil => rfl
  | cons e es ih =>
    have hes := ih fun e' he' => h e' (List.mem_cons_of_mem _ he')
    have he := h e (List.mem_cons_self ..)
    cases e with
    | hazardCreated | hazardDropped => cases he
    | _ => exact hes

theorem peak_append : peak (es ++ l) = peak l := by
  induction es with
  | nil => rfl
  | cons e es ih =>
    have howners : owners (e :: (es ++ l)) = owners l := owners_append h l
    have hpeak := ih fun e' he' => h e' (List.mem_cons_of_mem _ he')
    rw [List.cons_append, peak, howners, hpeak]
    exact Nat.max_eq_right (length_owners_le_peak l)

variable {l}

theorem ReusesRecords.append (hl : ReusesRecords l) : ReusesRecords (es ++ l) := by
  induction es with
  | nil => exact hl
  | cons e es ih =>
    refine (ih fun e' he' => h e' (List.mem_cons_of_mem _ he')).cons ?_
    rintro i rfl
    cases h _ (List.mem_cons_self ..)

end others
end Event

namespace Registry.Acquired
variable {g g' : Registry} {i : RecordId}

theorem isActive_before (h : g.Acquired i g') : g.isActive i = false := by
  cases h with
  | captured r hr hidle => simp [isActive, hr, hidle]
  | allocated _ hi => simp [isActive, hi]

/-- Either the record was there, or it comes behind those that were. -/
theorem size_eq (h : g.Acquired i g') :
    (i < g.records.size ∧ g'.records.size = g.records.size) ∨
      (i = g.records.size ∧ g'.records.size = g.records.size + 1 ∧
        ∀ j < g.records.size, g.isActive j = true) := by
  cases h with
  | captured r hr hidle =>
    exact .inl ⟨(Array.getElem?_eq_some_iff.1 hr).1, by simp [update]⟩
  | allocated hall hi =>
    refine .inr ⟨hi, by simp [allocate], fun j hj => ?_⟩
    simpa [isActive, Array.getElem?_eq_getElem hj] using hall _ (Array.getElem_mem hj)

end Registry.Acquired

theorem Registry.lt_size_of_isActive {g : Registry} {i : RecordId} (h : g.isActive i = true) :
    i < g.records.size := by
  obtain ⟨r, hr, -⟩ := Option.any_eq_true _ _ |>.1 h
  exact (Array.getElem?_eq_some_iff.1 hr).1

structure World.Peaked (w : World V) (hs : List (Holding V)) : Prop where
  alive : (Event.owners w.history).Perm ((w.hazardsWith hs).map (·.record))
  size : w.domain.registry.records.size = Event.peak w.history
  reuses : Event.ReusesRecords w.history

namespace World.Peaked
variable {w w' : World V} {hs hs' : List (Holding V)}

theorem keep (h : w.Peaked hs) (es : List (Event V)) (hes : ∀ e ∈ es, e.isOfHazard = false)
    (hhistory : w'.history = es ++ w.history)
    (hsize : w'.domain.registry.records.size = w.domain.registry.records.size)
    (hperm : ((w.hazardsWith hs).map (·.record)).Perm ((w'.hazardsWith hs').map (·.record))) :
    w'.Peaked hs' where
  alive := by
    rw [hhistory, Event.owners_append hes]
    exact h.alive.trans hperm
  size := by rw [hsize, hhistory, Event.peak_append hes, h.size]
  reuses := hhistory ▸ Event.ReusesRecords.append hes h.reuses

theorem mem_owners_iff (h : w.Peaked hs) (ho : w.domain.registry.OwnedBy (w.hazardsWith hs))
    (hc : w.domain.registry.Counts (w.hazardsWith hs)) (i : RecordId) :
    i ∈ Event.owners w.history ↔ w.domain.registry.isActive i = true := by
  rw [h.alive.mem_iff, Registry.isActive_iff ho hc]

/-- A captured record was free for another hazard pointer, and a record is allocated only where
none is free. -/
theorem acquire (h : w.Peaked hs) (ho : w.domain.registry.OwnedBy (w.hazardsWith hs))
    (hc : w.domain.registry.Counts (w.hazardsWith hs)) {i : RecordId} (t : ThreadId) {s : Site}
    (ha : w.domain.registry.Acquired i s.domain.registry) :
    ((w.setSite t s).emit (.hazardCreated i)).Peaked (.hazard { record := i } :: hs) := by
  have hmem := h.mem_owners_iff ho hc
  have hfresh : i ∉ Event.owners w.history := by simp [hmem, ha.isActive_before]
  have hnodup : (Event.owners w.history).Nodup := h.alive.nodup_iff.2 ho.distinct
  have halive : (Event.owners (.hazardCreated i :: w.history)).Perm
      ((World.hazardsWith ((w.setSite t s).emit (.hazardCreated i))
        (.hazard { record := i } :: hs)).map (·.record)) := by
    refine (h.alive.cons i).trans ?_
    exact ((List.perm_middle (a := ({ record := i } : Hazard))).map (·.record)).symm
  have hle := Event.length_owners_le_peak w.history
  rcases ha.size_eq with ⟨hlt, hsize⟩ | ⟨hi, hsize, hall⟩
  · have hroom : (i :: Event.owners w.history).length ≤ w.domain.registry.records.size := by
      rw [← List.length_range (n := w.domain.registry.records.size)]
      refine (List.subperm_of_subset (List.nodup_cons.2 ⟨hfresh, hnodup⟩) ?_).length_le
      intro j hj
      rw [List.mem_range]
      rcases List.mem_cons.1 hj with rfl | hj
      · exact hlt
      · exact Registry.lt_size_of_isActive ((hmem j).1 hj)
    refine ⟨halive, ?_, h.reuses.cons ?_⟩
    · refine hsize.trans (h.size.trans (Nat.max_eq_right ?_).symm)
      exact h.size ▸ hroom
    · intro j hj
      obtain rfl := Event.hazardCreated.inj hj
      rw [← h.size]
      exact ⟨hfresh, Nat.le_of_lt hlt, fun he => absurd he (Nat.ne_of_lt hlt)⟩
  · have hcover : w.domain.registry.records.size ≤ (Event.owners w.history).length := by
      rw [← List.length_range (n := w.domain.registry.records.size)]
      refine (List.subperm_of_subset List.nodup_range ?_).length_le
      exact fun j hj => (hmem j).2 (hall j (List.mem_range.1 hj))
    refine ⟨halive, ?_, h.reuses.cons ?_⟩
    · refine hsize.trans (Nat.le_antisymm ?_ ?_)
      · exact Nat.le_trans (Nat.succ_le_succ hcover) (Nat.le_max_left _ _)
      · rw [h.size]
        exact Nat.max_le.2 ⟨Nat.succ_le_succ hle, Nat.le_succ _⟩
    · intro j hj
      obtain rfl := Event.hazardCreated.inj hj
      rw [← h.size]
      exact ⟨hfresh, Nat.le_of_eq hi, fun _ j hj => (hmem j).2 (hall j hj)⟩

end World.Peaked

namespace Effect
variable {lossy : Prop} {g : Registry} {w w' : World V} {hs hs' : List (Holding V)}

theorem peaked (e : Effect lossy g w hs w' hs') (hsound : w.Sound hs)
    (hc : w.domain.registry.Counts (w.hazardsWith hs)) (h : w.Peaked hs) : w'.Peaked hs' := by
  -- The records that have an owner are the same unless a hazard pointer comes or goes.
  have hkeep {w' : World V} {hs' : List (Holding V)} (hhistory : w'.history = w.history)
      (hsize : w'.domain.registry.records.size = w.domain.registry.records.size)
      (hperm : ((w.hazardsWith hs).map (·.record)).Perm ((w'.hazardsWith hs').map (·.record))) :
      w'.Peaked hs' :=
    h.keep [] (by simp) hhistory hsize hperm
  cases e with
  | reorder hp => exact hkeep rfl rfl (((hp.filterMap _).append_left _).map _)
  | lose hlossy hlost =>
    rename_i k
    cases hk : k.hazard? with
    | none =>
      refine hkeep rfl rfl (.of_eq ?_)
      rw [World.hazardsWith, World.hazardsWith, List.filterMap_cons_none hk]
    | some x =>
      have hmem : x ∈ w.hazardsWith (k :: hs') := by simp [World.hazardsWith, hk]
      have hactive := (Registry.isActive_iff hsound.owned hc x.record).2 (List.mem_map_of_mem hmem)
      rw [hlost x hk] at hactive
      cases hactive
  | fault hk hlacks => exact absurd hlacks (hsound.not_lacks _ hk)
  | settle t s hreg => exact hkeep rfl (congrArg (·.records.size) hreg) (.refl _)
  | scan rs ds ls t s hreg =>
    refine hkeep rfl (congrArg (·.records.size) hreg) (.of_eq ?_)
    rw [World.hazardsWith, World.hazardsWith,
      Holding.filterMap_scan _ (fun _ => rfl) (fun _ => rfl) rs ds ls]
    rfl
  | abandon b =>
    refine hkeep rfl rfl (.of_eq ?_)
    rw [World.hazardsWith, World.hazardsWith, Holding.filterMap_map_append .unbagged _ fun _ => rfl]
    rfl
  | acquire t i s hacquired => exact h.acquire hsound.owned hc t hacquired
  | publish a =>
    refine hkeep rfl (by simp [World.publish, World.mapRegistry, Registry.protect, Registry.update])
      (.of_eq ?_)
    simp [World.hazardsWith, World.publish, World.mapRegistry, Holding.hazard?]
  | republish name a hget =>
    rename_i k
    refine hkeep rfl
      (by simp [World.publish, World.mapRegistry, Registry.protect, Registry.update]) ?_
    have hold := (Table.values_erase hget).append_right (hs.filterMap Holding.hazard?)
    have hnew := (Table.values_insert w.hazards name { k with target := a }).append_right
      (hs.filterMap Holding.hazard?)
    exact (hold.map (·.record)).trans (hnew.map (·.record)).symm
  | giveName name hget =>
    refine hkeep rfl rfl (List.Perm.map _ ?_)
    exact List.perm_middle.trans ((Table.values_insert_new hget _).append_right _).symm
  | takeName name hget =>
    refine hkeep rfl rfl (List.Perm.map _ ?_)
    exact ((Table.values_erase hget).append_right _).trans List.perm_middle.symm
  | release registry hrelease =>
    rename_i k
    refine ⟨?_, ?_, h.reuses.cons (by simp)⟩
    · have halive := (h.alive.trans (List.perm_middle.map _)).erase k.record
      rwa [List.map_cons, List.erase_cons_head] at halive
    · exact (Registry.size_of_release hrelease).1.trans (h.size.trans (Event.peak_dropped ..).symm)
  | unlink name q q' a =>
    rw [World.noteUnlinked_eq]
    refine h.keep _ ?_ rfl rfl (.refl _)
    simp [Event.isOfHazard]
  | note e he =>
    exact h.keep [e] (by simpa using Event.isOfHazard_of_isVisible he) rfl rfl (.refl _)
  | createQueue | declare | allocate | link | claimFront | finish | destroyObject | destroyNode
  | free | drop => exact h.keep [_] (by simp [Event.isOfHazard]) rfl rfl (.refl _)
  | configure | storeCells | setThread | createRecord | condemn | spare | enter | depart | count
  | setWaiter | help | begin | findEmpty | claimDetached | missDetached | giveUp | freed | vacant
  | discard => exact hkeep rfl rfl (.refl _)

end Effect

namespace Run
variable {m n : Run V}

theorem Reachable.peaked (h : m.Reachable) : m.world.Peaked m.holdings := by
  have hall : m.world.Sound m.holdings ∧
      m.world.domain.registry.Counts (m.world.hazardsWith m.holdings) ∧
      m.world.Peaked m.holdings := by
    refine @of_effects V (fun w hs => w.Sound hs ∧
      w.domain.registry.Counts (w.hazardsWith hs) ∧ w.Peaked hs) ?_ ?_ m h
    · refine ⟨World.sound_empty, ⟨?_, ?_, rfl⟩, ?_, rfl, ?_⟩
      · simp [Registry.isActive]
      · simp [World.hazardsWith, Table.values_empty]
      · simp [World.hazardsWith, Table.values_empty, Event.owners]
      · simp [Event.ReusesRecords]
    · rintro lossy g w hs w' hs' e ⟨hsound, hc, h⟩
      exact ⟨e.sound hsound, e.counts hsound hc, e.peaked hsound hc h⟩
  exact hall.2.2

/-- The number of records is the greatest number of hazard pointers that were alive at the same
time, those counted that operations have created for themselves: it was needed at some moment, and
no more than that was needed at any moment. A hazard pointer gets a new record only when there is
an owner for each of the others, whatever the thread has in its cache. -/
theorem Reachable.records_peak (hm : m.Reachable) (hn : Reaches (fun _ => True) m n) :
    let g := n.world.domain.registry
    let peak := Event.peak n.world.history
    (Event.owners n.world.history).Perm (n.hazards.map (·.record)) ∧
      g.records.size = peak ∧ g.allocated = UInt64.ofNat peak ∧
      (∀ l, l <:+ n.world.history → (Event.owners l).length ≤ peak) ∧
      (∃ l, l <:+ n.world.history ∧ (Event.owners l).length = peak) ∧
      m.hazards.length ≤ peak ∧
      Event.ReusesRecords n.world.history ∧
      (∀ (s s' : Site) (i : RecordId), s.domain.registry = g → s.acquireRecord = .ok (i, s') →
        s'.domain.registry.records.size = g.records.size ∨
          ∀ j < g.records.size, ∃ h ∈ n.hazards, h.record = j) := by
  have hreach : n.Reachable := Reaches.trans hm hn
  have hpeaked := hreach.peaked
  have hbound (l : List (Event V)) (hl : l <:+ n.world.history) :
      (Event.owners l).length ≤ Event.peak n.world.history :=
    Nat.le_trans (Event.length_owners_le_peak l) (Event.peak_le_of_suffix hl)
  refine ⟨hpeaked.alive, hpeaked.size, ?_, hbound, Event.exists_length_owners_eq_peak _, ?_,
    hpeaked.reuses, ?_⟩
  · rw [hreach.counts.allocated, hpeaked.size]
  · have hlength := hm.peaked.alive.length_eq
    rw [List.length_map] at hlength
    exact hlength ▸ hbound _ hn.history_suffix
  · intro s s' i hs hacquire
    have hacquired := (Site.acquireRecord_spec hacquire).1
    rw [hs] at hacquired
    rcases hacquired.size_eq with ⟨-, hsize⟩ | ⟨-, -, hall⟩
    · exact .inl hsize
    · refine .inr fun j hj => ?_
      exact List.mem_map.1 ((Registry.isActive_iff hreach.ownedBy hreach.counts j).1 (hall j hj))

def snatched : Run Nat := idle.following
  (tell 0 9 [.newHazard "a" none, .newHazard "b" none] ++ tell 1 9 [.dropHazard "a"] ++
  tell 0 9 [.newHazard "c" none])

theorem snatched_reachable : snatched.Reachable :=
  .following (.refl trivial) _ (by decide +kernel)

theorem snatched_peak :
    let later := snatched.following (tell 1 9 [.newHazard "d" none] ++ tell 0 9 [.dropHazard "b"])
    snatched.Reachable ∧ Reaches (fun _ => True) snatched later ∧
      snatched.hazards.map (·.record) = [1, 0] ∧ later.hazards.map (·.record) = [0, 2] ∧
      later.world.domain.registry.records.size = 3 ∧
      Event.peak later.world.history = 3 := by
  have hn : Reaches (fun _ => True) snatched
      (snatched.following (tell 1 9 [.newHazard "d" none] ++ tell 0 9 [.dropHazard "b"])) :=
    .following (.refl trivial) _ (by decide +kernel)
  have hpeak := (snatched_reachable.records_peak hn).2.1
  exact ⟨snatched_reachable, hn, by decide +kernel, by decide +kernel, by decide +kernel,
    hpeak.symm.trans (by decide +kernel)⟩

end Run
end Reclaim
