import Mathlib.Data.List.Nodup
import Reclaim.Proofs.Custody.Step
import Reclaim.Proofs.TableEntries

set_option autoImplicit false

namespace Reclaim
variable {V : Type}

/-- The hazard pointers of the list own distinct records, which say what they protect. -/
structure Registry.OwnedBy (g : Registry) (l : List Hazard) : Prop where
  distinct : (l.map (·.record)).Nodup
  published : ∀ h ∈ l, g.records[h.record]? = some { target := h.target, active := true }
  idle : ∀ (i : RecordId) (r : HazardRecord), g.records[i]? = some r → r.active = false →
    r.target = none

namespace Registry.OwnedBy
variable {g g' : Registry} {l l' : List Hazard} {h : Hazard} {i : RecordId}

theorem perm (ho : g.OwnedBy l) (hp : l.Perm l') : g.OwnedBy l' where
  distinct := (hp.map _).nodup_iff.1 ho.distinct
  published h hh := ho.published h (hp.mem_iff.2 hh)
  idle := ho.idle

theorem sublist (ho : g.OwnedBy l) (hs : l'.Sublist l) : g.OwnedBy l' where
  distinct := (hs.map _).nodup ho.distinct
  published h hh := ho.published h (hs.subset hh)
  idle := ho.idle

theorem ne_record (ho : g.OwnedBy (h :: l)) {x : Hazard} (hx : x ∈ l) : x.record ≠ h.record := by
  have hnew : h.record ∉ l.map (·.record) := (List.nodup_cons.1 ho.distinct).1
  intro he
  exact hnew (List.mem_map.2 ⟨x, hx, he⟩)

theorem acquire (ho : g.OwnedBy l) (ha : g.Acquired i g') :
    g'.OwnedBy ({ record := i } :: l) := by
  obtain ⟨target, hself, hold⟩ := ha.records_self
  have hne : ∀ x ∈ l, x.record ≠ i := by
    rintro x hx rfl
    have := (hold _ (ho.published x hx)).1
    simp at this
  have htarget : target = none := by
    cases ha with
    | captured r hr hactive =>
      rw [← (hold r hr).2]
      exact ho.idle i r hr hactive
    | allocated _ hi =>
      subst hi
      simpa [allocate, eq_comm] using hself
  subst htarget
  refine ⟨List.nodup_cons.2 ⟨?_, ho.distinct⟩, ?_, ?_⟩
  · intro hmem
    obtain ⟨x, hx, hxi⟩ := List.mem_map.1 hmem
    exact hne x hx hxi
  · intro x hx
    rcases List.mem_cons.1 hx with rfl | hx
    · exact hself
    · rw [ha.records_ne (hne x hx)]
      exact ho.published x hx
  · intro j r hr hactive
    by_cases hj : j = i
    · subst hj
      obtain rfl := Option.some.inj (hself.symm.trans hr)
      simp at hactive
    · rw [ha.records_ne hj] at hr
      exact ho.idle j r hr hactive

theorem publish (ho : g.OwnedBy (h :: l)) (a : Option Address) :
    (g.protect h.record a).OwnedBy ({ h with target := a } :: l) := by
  have hself := ho.published h (List.mem_cons_self ..)
  refine ⟨ho.distinct, ?_, ?_⟩
  · intro x hx
    rw [records_protect]
    rcases List.mem_cons.1 hx with rfl | hx
    · simp [hself]
    · rw [if_neg (ho.ne_record hx).symm]
      exact ho.published x (List.mem_cons_of_mem _ hx)
  · intro j r hr hactive
    rw [records_protect] at hr
    split at hr
    · rename_i hj
      subst hj
      rw [hself] at hr
      obtain rfl := Option.some.inj hr
      simp at hactive
    · exact ho.idle j r hr hactive

theorem release (ho : g.OwnedBy (h :: l)) (hr : g.release h.record = .ok g') : g'.OwnedBy l := by
  refine ⟨(List.nodup_cons.1 ho.distinct).2, ?_, ?_⟩
  · intro x hx
    rw [records_release hr, if_neg (ho.ne_record hx).symm]
    exact ho.published x (List.mem_cons_of_mem _ hx)
  · intro j r hj hactive
    rw [records_release hr] at hj
    split at hj
    · obtain ⟨_, -, rfl⟩ := Option.map_eq_some_iff.1 hj
      rfl
    · exact ho.idle j r hj hactive

theorem protected_of_mem (ho : g.OwnedBy l) (hh : h ∈ l) {a : Address} (ha : h.target = some a) :
    a ∈ g.protectedAddresses := by
  refine mem_protectedAddresses.2 ⟨h.record, ?_⟩
  rw [Registry.target, ho.published h hh]
  exact ha

end Registry.OwnedBy

def World.hazardsWith (w : World V) (hs : List (Holding V)) : List Hazard :=
  w.hazards.values ++ hs.filterMap Holding.hazard?

namespace Effect
variable {lossy : Prop} {g : Registry} {w w' : World V} {hs hs' : List (Holding V)}

theorem ownedBy (e : Effect lossy g w hs w' hs')
    (ho : w.domain.registry.OwnedBy (w.hazardsWith hs)) :
    w'.domain.registry.OwnedBy (w'.hazardsWith hs') := by
  cases e with
  | reorder hp => exact ho.perm ((hp.filterMap _).append_left _)
  | lose => exact ho.sublist (((List.sublist_cons_self _ _).filterMap _).append_left _)
  | fault _ _ hsub => exact ho.sublist ((hsub.filterMap _).append_left _)
  | settle t s hreg hrec => exact hreg ▸ ho
  | scan rs ds ls t s hreg =>
    rw [World.hazardsWith, Holding.filterMap_scan _ (fun _ => rfl) (fun _ => rfl) rs ds ls]
    exact hreg ▸ ho
  | abandon b =>
    rw [World.hazardsWith, Holding.filterMap_map_append .unbagged _ fun _ => rfl] at ho
    exact ho
  | acquire t i s hacquired =>
    exact (ho.acquire hacquired).perm List.perm_middle.symm
  | publish a =>
    exact ((ho.perm List.perm_middle).publish a).perm List.perm_middle.symm
  | republish name a hget =>
    rename_i h
    have hold := (Table.values_erase hget).append_right (hs.filterMap Holding.hazard?)
    have hnew := (Table.values_insert w.hazards name { h with target := a }).append_right
      (hs.filterMap Holding.hazard?)
    exact ((ho.perm hold).publish a).perm hnew.symm
  | giveName name hget =>
    refine ho.perm (List.perm_middle.trans ?_)
    exact ((Table.values_insert_new hget _).append_right _).symm
  | takeName name hget =>
    refine ho.perm (((Table.values_erase hget).append_right _).trans ?_)
    exact List.perm_middle.symm
  | release registry hrelease => exact (ho.perm List.perm_middle).release hrelease
  | unlink name q q' a =>
    rw [World.noteUnlinked_eq]
    exact ho
  | configure | storeCells | setThread | note | createRecord | createQueue | condemn | spare
  | declare | enter | depart | allocate | link | count | setWaiter | help | begin | claimFront
  | findEmpty | claimDetached | missDetached | giveUp | finish | destroyObject | destroyNode
  | free | freed | vacant | drop | discard => exact ho

end Effect

theorem World.ownedBy_empty :
    ({} : World V).domain.registry.OwnedBy (({} : World V).hazardsWith []) := by
  refine ⟨?_, ?_, ?_⟩
  · simp [hazardsWith, Table.values_empty]
  · simp [hazardsWith, Table.values_empty]
  · simp

theorem Run.Reachable.ownedBy {m : Run V} (h : m.Reachable) :
    m.world.domain.registry.OwnedBy m.hazards := by
  refine @of_effects V (fun w hs => w.domain.registry.OwnedBy (w.hazardsWith hs)) ?_ ?_ m h
  · exact World.ownedBy_empty
  · exact fun _ _ _ _ _ _ e => e.ownedBy

end Reclaim
