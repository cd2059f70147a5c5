import Reclaim.Proofs.Cells

set_option autoImplicit false

namespace Reclaim
variable {V : Type}

def Holding.queue? : Holding V → Option Name
  | visit name | detached name _ _ _ | uncounted name => some name
  | _ => none

namespace World

def Live (w : World V) (hs : List (Holding V)) : Prop :=
  ∀ name ∈ hs.filterMap Holding.queue?, (w.queues.get? name).isSome = true

def Stored (w : World V) (a : Address) : Prop :=
  (w.memory.objects.get? a).isSome = true ∨ (w.memory.nodes.get? a).isSome = true

structure Sound (w : World V) (hs : List (Holding V)) : Prop where
  owned : w.domain.registry.OwnedBy (w.hazardsWith hs)
  account : (w.account hs).Subperm w.retirements
  census : (w.census hs).Valid
  guarded : Holding.Guarded hs
  live : w.Live hs
  unretired : ∀ a ∈ w.unretired, (w.memory.objects.get? a).isSome = true
  condemned : ∀ a ∈ hs.filterMap Holding.condemned?, w.Stored a
  kept : ∀ r ∈ w.account hs, r ∈ w.reclamations ∨ w.Stored r.address

namespace Sound
variable {w : World V} {hs : List (Holding V)} {a : Address}

theorem nodup_others (h : w.Sound hs) : (w.census hs).others.Nodup :=
  (List.nodup_append.1 h.census.spaced.distinct).2.1

theorem unretired_not_retired (h : w.Sound hs) (ha : a ∈ w.unretired) :
    a ∉ w.retirements.map (·.address) := fun hmem =>
  (List.nodup_append.1 h.nodup_others).2.2 a ha a (List.mem_append_right _ hmem) rfl

theorem condemned_not_retired (h : w.Sound hs) (ha : a ∈ hs.filterMap Holding.condemned?) :
    a ∉ w.retirements.map (·.address) := fun hmem =>
  (List.nodup_append.1 (List.nodup_append.1 h.nodup_others).2.1).2.2 a ha a hmem rfl

theorem not_linked (h : w.Sound hs) (ha : a ∈ (w.census hs).others) :
    a ∉ (w.census hs).linked := fun hmem =>
  h.census.spaced.not_mem_others (List.mem_append_left _ hmem) ha

theorem nodup_retirements (h : w.Sound hs) : (w.retirements.map (·.address)).Nodup :=
  (List.nodup_append.1 (List.nodup_append.1 h.nodup_others).2.1).2.1

theorem nodup_account (h : w.Sound hs) : ((w.account hs).map (·.address)).Nodup := by
  obtain ⟨l, hperm, hsub⟩ := h.account
  exact (hperm.map _).nodup_iff.1 ((hsub.map _).nodup h.nodup_retirements)

theorem doomed_not_reclaimed (h : w.Sound hs) {r : Retired} (hr : Holding.doomed r ∈ hs) :
    r ∉ w.reclamations := by
  have hkept : r ∈ hs.filterMap Holding.kept? := List.mem_filterMap.2 ⟨_, hr, rfl⟩
  have hnodup := h.nodup_account.of_map
  exact fun hmem => (List.nodup_append.1 hnodup).2.2 r hmem r (by simp [hkept]) rfl

end Sound
end World

namespace Effect
variable {lossy : Prop} {g : Registry} {w w' : World V} {hs hs' : List (Holding V)}

theorem guarded (e : Effect lossy g w hs w' hs')
    (ho : w.domain.registry.OwnedBy (w.hazardsWith hs))
    (hacc : (w.account hs).Subperm w.retirements) (hcensus : (w.census hs).Valid)
    (h : Holding.Guarded hs) : Holding.Guarded hs' := by
  have hless {hs' : List (Holding V)}
      (hdet : hs'.filterMap Holding.detached? ⊆ hs.filterMap Holding.detached?)
      (hdoom : hs'.filterMap Holding.doomed? ⊆ hs.filterMap Holding.doomed?) :
      Holding.Guarded hs' := fun x hx =>
    ⟨(h x (hdet hx)).1, fun hmem => (h x (hdet hx)).2 (hdoom hmem)⟩
  cases e with
  | reorder hp =>
    exact hless (hp.symm.filterMap _).subset (hp.symm.filterMap _).subset
  | lose =>
    exact hless ((List.sublist_cons_self _ _).filterMap _).subset
      ((List.sublist_cons_self _ _).filterMap _).subset
  | fault _ _ hsub => exact hless (hsub.filterMap _).subset (hsub.filterMap _).subset
  | scan rs ds ls t s hreg hg hperm hfree =>
    rename_i hs
    rw [World.hazardsWith, Holding.filterMap_map_append .unbagged _ fun _ => rfl] at ho
    rw [Holding.guarded_unbagged] at h
    intro x hx
    rw [Holding.filterMap_map_append .doomed _ fun _ => rfl,
      Holding.filterMap_map_append .unbagged _ fun _ => rfl] at hx
    obtain ⟨htarget, hdoomed⟩ := h x hx
    refine ⟨htarget, fun hmem => ?_⟩
    obtain ⟨r, hr, hra⟩ := Holding.mem_doomed.1 hmem
    rcases List.mem_append.1 hr with hr | hr
    · -- The scan has seen the hazard pointer of the node.
      obtain ⟨r', hr', heq⟩ := List.mem_map.1 hr
      obtain rfl := Holding.doomed.inj heq
      obtain ⟨k, hk, hkx⟩ := List.mem_filterMap.1 hx
      have hhazard : x.1 ∈ w.hazards.values ++ hs.filterMap Holding.hazard? := by
        refine List.mem_append_right _ (List.mem_filterMap.2 ⟨k, hk, ?_⟩)
        cases k with
        | detached _ _ h a =>
          obtain rfl := Option.some.inj hkx
          rfl
        | _ => cases hkx
      exact hfree r' hr' (hra ▸ ho.protected_of_mem hhazard htarget)
    · refine hdoomed (Holding.mem_doomed.2 ⟨r, ?_, hra⟩)
      simpa using hr
  | abandon b => exact Holding.guarded_unbagged.1 h
  | unlink name q q' a hq hround htarget =>
    obtain ⟨n, next, hhead, -, -, -, -⟩ := Queue.dequeueRound_unlinked hround
    intro x hx
    rcases List.mem_cons.1 hx with rfl | hx
    · refine ⟨htarget, fun hmem => ?_⟩
      obtain ⟨r, hr, rfl⟩ := Holding.mem_doomed.1 hmem
      have hother := doomed_address_mem (r := r) hacc (by simpa using hr)
      refine hcensus.spaced.not_mem_others (List.mem_append_left _ ?_)
        (List.mem_append_right _ (List.mem_append_right _ hother))
      exact World.head_mem_linked hcensus hq hhead
    · exact h x hx
  | claimDetached | missDetached | giveUp =>
    exact hless (List.subset_cons_self _ _) (List.Subset.refl _)
  | destroyObject | destroyNode => exact hless (List.Subset.refl _) (List.subset_cons_self _ _)
  | configure | storeCells | setThread | note | createRecord | createQueue | condemn | spare
  | declare | settle | acquire | publish | republish | giveName | takeName | release | enter
  | depart | allocate | link | count | setWaiter | help | begin | claimFront | findEmpty | finish
  | free | freed | vacant | drop => exact h
  | discard => exact fun x hx => absurd hx (List.not_mem_nil)

theorem live (e : Effect lossy g w hs w' hs') (h : w.Live hs) : w'.Live hs' := by
  have hless {hs' : List (Holding V)}
      (hsub : hs'.filterMap Holding.queue? ⊆ hs.filterMap Holding.queue?) : w.Live hs' :=
    fun name hname => h name (hsub hname)
  have hset {hs' : List (Holding V)} (hh : w.Live hs') (name : Name) (q : Queue) :
      ∀ name' ∈ hs'.filterMap Holding.queue?,
        ((w.queues.insert name q).get? name').isSome = true := fun name' hname' =>
    Table.isSome_insert (hh name' hname') name q
  cases e with
  | reorder hp => exact hless (hp.symm.filterMap _).subset
  | lose => exact hless ((List.sublist_cons_self _ _).filterMap _).subset
  | fault _ _ hsub => exact hless (hsub.filterMap _).subset
  | createQueue name strategy _ => exact hset h name _
  | scan rs ds ls t s =>
    refine hless (fun name hname => ?_)
    rwa [Holding.filterMap_scan _ (fun _ => rfl) (fun _ => rfl) rs ds ls] at hname
  | abandon b =>
    refine hless (fun name hname => ?_)
    rwa [Holding.filterMap_map_append .unbagged _ fun _ => rfl]
  | enter name hname =>
    intro name' hname'
    rcases List.mem_cons.1 hname' with rfl | hname'
    · exact hname
    · exact h name' hname'
  | depart => exact hless (List.subset_cons_self _ _)
  | link name q q' nodes => exact hset h name q'
  | count =>
    intro name' hname'
    have hold := h name' hname'
    rw [Table.get?_modify]
    split
    · rwa [Option.isSome_map]
    · exact hold
  | setWaiter name q waiter => exact hset h name _
  | help name q t next => exact hset h name _
  | claimFront name q q' p nodes => exact hset h name q'
  | unlink name q q' a hq =>
    rw [World.noteUnlinked_eq]
    intro name' hname'
    change ((w.queues.insert name q').get? name').isSome = true
    rw [Table.get?_insert]
    split
    · rfl
    · rcases List.mem_cons.1 hname' with rfl | hname'
      · contradiction
      · exact h name' hname'
  | claimDetached name q q' p nodes =>
    exact hset (hless (List.subset_cons_self _ _)) name q'
  | missDetached | giveUp => exact hless (List.subset_cons_self _ _)
  | configure | storeCells | setThread | note | createRecord | condemn | spare | declare | settle
  | acquire | publish | republish | giveName | takeName | release | allocate | begin | findEmpty
  | finish | free | freed | vacant | drop | destroyObject | destroyNode => exact h
  | discard => exact fun name hname => absurd hname List.not_mem_nil

theorem history_suffix (e : Effect lossy g w hs w' hs') : w.history <:+ w'.history := by
  cases e with
  | note | createQueue | declare | acquire | release | allocate | link | claimFront | finish
  | destroyObject | destroyNode | free | drop => exact List.suffix_cons _ _
  | unlink =>
    rw [World.noteUnlinked_eq]
    exact List.suffix_append _ _
  | reorder | lose | fault | configure | storeCells | setThread | createRecord | condemn | spare
  | settle | scan | abandon | publish | republish | giveName | takeName | enter | depart | count
  | setWaiter | help | begin | findEmpty | claimDetached | missDetached | giveUp | freed
  | vacant | discard => exact List.suffix_rfl

theorem reclamations_subset (e : Effect lossy g w hs w' hs') :
    w.reclamations ⊆ w'.reclamations :=
  (e.history_suffix.sublist.filterMap _).subset

/-- A cell stays unless it is reclaimed, or freed with its queue. -/
theorem stored (e : Effect lossy g w hs w' hs') (hcensus : (w.census hs).Valid) {a : Address}
    (h : w.Stored a) :
    w'.Stored a ∨ (∃ r, .doomed r ∈ hs ∧ r.address = a ∧ r ∈ w'.reclamations) ∨
      a ∈ (w.census hs).linked := by
  cases e with
  | createRecord => exact .inl (h.imp_left fun h => Table.isSome_insert h _ _)
  | createQueue | allocate => exact .inl (h.imp_right fun h => Table.isSome_insert h _ _)
  | link name q q' nodes hq hround =>
    obtain ⟨t, last, -, -, -, -, rfl⟩ := Queue.enqueueRound_linked hround
    exact .inl (h.imp_right fun h => Table.isSome_insert h _ _)
  | claimFront name q q' p nodes hq hround =>
    obtain ⟨b, n, -, -, -, -, -, rfl⟩ := Queue.dequeueRound_claimed hround
    exact .inl (h.imp_right fun h => Table.isSome_insert h _ _)
  | claimDetached name q q' p nodes hq hclaim =>
    obtain ⟨n, -, -, -, rfl⟩ := Queue.claim_taken hclaim
    exact .inl (h.imp_right fun h => Table.isSome_insert h _ _)
  | unlink =>
    rw [World.noteUnlinked_eq]
    exact .inl h
  | @destroyObject r =>
    by_cases hr : r.address = a
    · exact .inr (.inl ⟨r, List.mem_cons_self .., hr, List.mem_cons_self ..⟩)
    · exact .inl (h.imp_left fun h => Table.isSome_erase h (Ne.symm hr))
  | @destroyNode r =>
    by_cases hr : r.address = a
    · exact .inr (.inl ⟨r, List.mem_cons_self .., hr, List.mem_cons_self ..⟩)
    · exact .inl (h.imp_right fun h => Table.isSome_erase h (Ne.symm hr))
  | @free i b hs n hn =>
    by_cases hb : a = b
    · subst hb
      refine .inr (.inr (hcensus.start_mem_linked (List.mem_append_right _ ?_)))
      exact List.mem_cons_self ..
    · exact .inl (h.imp_right fun h => Table.isSome_erase h hb)
  | reorder | lose | fault | configure | storeCells | setThread | note | condemn | spare
  | declare | settle | scan | abandon | acquire | publish | republish | giveName | takeName
  | release | enter | depart | count | setWaiter | help | begin | findEmpty | missDetached
  | giveUp | finish | freed | vacant | drop | discard => exact .inl h

theorem unretired (e : Effect lossy g w hs w' hs') (h : w.Sound hs) :
    ∀ a ∈ w'.unretired, (w'.memory.objects.get? a).isSome = true := by
  have hu := h.unretired
  cases e with
  | createRecord name acts hname =>
    intro a ha
    have hperm := (Table.values_insert_new hname
      { address := w.memory.fresh }).filterMap RecordEntry.unretired?
    rcases List.mem_cons.1 (hperm.mem_iff.1 ha) with rfl | ha
    · change ((w.memory.objects.insert w.memory.fresh _).get? w.memory.fresh).isSome = true
      rw [Table.get?_insert_self]
      rfl
    · exact Table.isSome_insert (hu a ha) _ _
  | condemn name e deleter he hretired =>
    intro a ha
    have hnew := (Table.values_insert w.records name
      { e with retired := true }).filterMap RecordEntry.unretired?
    have hold := (Table.values_erase he).filterMap RecordEntry.unretired?
    refine hu a (hold.mem_iff.2 ?_)
    exact ((List.sublist_cons_self _ _).filterMap _).subset (hnew.mem_iff.1 ha)
  | unlink =>
    rw [World.noteUnlinked_eq]
    exact hu
  | @destroyObject r _ o =>
    intro a ha
    have hgone (e : RecordEntry) :
        RecordEntry.unretired? { e with gone := true } = e.unretired? := rfl
    have ha' := (Table.filterMap_values_modify w.records o.name hgone).mem_iff.1 ha
    apply Table.isSome_erase (hu a ha')
    rintro rfl
    exact h.unretired_not_retired ha' (doomed_address_mem h.account (List.mem_cons_self ..))
  | reorder | lose | fault | configure | storeCells | setThread | note | createQueue | spare
  | declare | settle | scan | abandon | acquire | publish | republish | giveName | takeName
  | release | enter | depart | allocate | link | count | setWaiter | help | begin | claimFront
  | findEmpty | claimDetached | missDetached | giveUp | finish | destroyNode | free | freed
  | vacant | drop | discard => exact hu

theorem condemned_stored (e : Effect lossy g w hs w' hs') (h : w.Sound hs) {a : Address}
    (ha : a ∈ hs.filterMap Holding.condemned?) : w'.Stored a := by
  rcases e.stored h.census (h.condemned a ha) with hstored | ⟨r, hr, rfl, -⟩ | hlinked
  · exact hstored
  · exact absurd (doomed_address_mem h.account hr) (h.condemned_not_retired ha)
  · exact absurd hlinked (h.not_linked (List.mem_append_right _ (List.mem_append_left _ ha)))

theorem condemned (e : Effect lossy g w hs w' hs') (h : w.Sound hs) :
    ∀ a ∈ hs'.filterMap Holding.condemned?, w'.Stored a := by
  have hless (hsub : hs'.filterMap Holding.condemned? ⊆ hs.filterMap Holding.condemned?) :
      ∀ a ∈ hs'.filterMap Holding.condemned?, w'.Stored a := fun a ha =>
    e.condemned_stored h (hsub ha)
  cases e with
  | reorder hp => exact hless (hp.symm.filterMap _).subset
  | lose => exact hless ((List.sublist_cons_self _ _).filterMap _).subset
  | fault _ _ hsub => exact hless (hsub.filterMap _).subset
  | condemn name e deleter he hretired =>
    intro a ha
    rcases List.mem_cons.1 ha with rfl | ha
    · refine .inl (h.unretired e.address (List.mem_filterMap.2 ⟨e, ?_, ?_⟩))
      · exact Table.mem_values.2 ⟨name, he⟩
      · simp [RecordEntry.unretired?, hretired]
    · exact h.condemned a ha
  | spare | declare => exact hless (List.subset_cons_self _ _)
  | scan rs ds ls t s =>
    apply hless
    intro a ha
    rwa [Holding.filterMap_scan _ (fun _ => rfl) (fun _ => rfl) rs ds ls] at ha
  | abandon b =>
    apply hless
    intro a ha
    rwa [Holding.filterMap_map_append .unbagged _ fun _ => rfl]
  | unlink name q q' a hq hround htarget =>
    obtain ⟨n, next, -, -, hn, -, -⟩ := Queue.dequeueRound_unlinked hround
    rw [World.noteUnlinked_eq]
    intro b hb
    rcases List.mem_cons.1 hb with rfl | hb
    · exact .inr (Option.isSome_iff_exists.2 ⟨n, hn⟩)
    · exact h.condemned b hb
  | configure | storeCells | setThread | note | createRecord | createQueue | settle | acquire
  | publish | republish | giveName | takeName | release | enter | depart | allocate | link
  | count | setWaiter | help | begin | claimFront | findEmpty | claimDetached | missDetached
  | giveUp | finish | destroyObject | destroyNode | free | freed | vacant | drop =>
    exact hless (List.Subset.refl _)
  | discard => exact fun a ha => absurd ha List.not_mem_nil

theorem kept (e : Effect lossy g w hs w' hs') (h : w.Sound hs) :
    ∀ r ∈ w'.account hs', r ∈ w'.reclamations ∨ w'.Stored r.address := by
  obtain ⟨new, lost, -, hnew, hperm, -⟩ := e.balance
  intro r hr
  rcases List.mem_append.1 (hperm.mem_iff.1 (List.mem_append_left _ hr)) with hr | hr
  · have hcondemned : r.address ∈ hs.filterMap Holding.condemned? :=
      List.mem_filterMap.2 ⟨_, hnew r hr, rfl⟩
    exact .inr (e.condemned_stored h hcondemned)
  · rcases h.kept r hr with hreclaimed | hstored
    · exact .inl (e.reclamations_subset hreclaimed)
    · rcases e.stored h.census hstored with hstored | ⟨r', hr', heq, hmem⟩ | hlinked
      · exact .inr hstored
      -- What is reclaimed at the address is the record itself, since no address is retired twice.
      · obtain rfl := List.inj_on_of_nodup_map h.nodup_account (doomed_mem_account hr') hr heq
        exact .inl hmem
      · refine absurd hlinked (h.not_linked (List.mem_append_right _ (List.mem_append_right _ ?_)))
        exact List.mem_map_of_mem (h.account.subset hr)

theorem sound (e : Effect lossy g w hs w' hs') (h : w.Sound hs) : w'.Sound hs' where
  owned := e.ownedBy h.owned
  account := e.account_subperm h.account
  census := e.census h.account h.guarded h.census
  guarded := e.guarded h.owned h.account h.census h.guarded
  live := e.live h.live
  unretired := e.unretired h
  condemned := e.condemned h
  kept := e.kept h

end Effect

theorem World.sound_empty : ({} : World V).Sound [] where
  owned := ownedBy_empty
  account := by
    rw [account_empty]
    exact List.nil_subperm
  census := by
    refine ⟨?_, ?_, ?_, ?_, ?_, ?_, ?_⟩ <;>
      simp [census, Census.starts, Census.taken, Census.linked, Table.values_empty, unretired,
        retirements]
  guarded := fun x hx => absurd hx List.not_mem_nil
  live := fun name hname => absurd hname List.not_mem_nil
  unretired := by simp [World.unretired, Table.values_empty]
  condemned := fun a ha => absurd ha List.not_mem_nil
  kept := by simp [account_empty]

theorem Run.Reachable.sound {m : Run V} (h : m.Reachable) : m.world.Sound m.holdings :=
  h.of_effects World.sound_empty fun _ _ _ _ _ _ e => e.sound

theorem World.Sound.not_lacks {w : World V} {hs : List (Holding V)} (h : w.Sound hs) :
    ∀ k ∈ hs, ¬ w.Lacks k := by
  intro k hk hlacks
  cases k with
  | visit name =>
    have hlive := h.live name (List.mem_filterMap.2 ⟨_, hk, rfl⟩)
    obtain ⟨q, hq⟩ := Option.isSome_iff_exists.1 hlive
    obtain ⟨a, hend, hnone⟩ := hlacks q hq
    rcases hend with hhead | htail
    · have hsome := h.census.isSome_of_linked (World.head_mem_linked h.census hq hhead)
      exact Option.isSome_iff_ne_none.1 hsome hnone
    · have hsome := h.census.isSome_of_linked (World.tail_mem_linked h.census hq htail)
      exact Option.isSome_iff_ne_none.1 hsome hnone
  | detached name c hz a =>
    have hmem : (hz, a) ∈ hs.filterMap Holding.detached? := List.mem_filterMap.2 ⟨_, hk, rfl⟩
    have hsome := h.census.unclaimed a (List.mem_map_of_mem hmem)
    exact Option.isSome_iff_ne_none.1 hsome hlacks
  | doomed r =>
    rcases h.kept r (Effect.doomed_mem_account hk) with hreclaimed | hstored
    · exact h.doomed_not_reclaimed hk hreclaimed
    · rcases hstored with hsome | hsome
      · exact Option.isSome_iff_ne_none.1 hsome hlacks.1
      · exact Option.isSome_iff_ne_none.1 hsome hlacks.2
  | cut i next =>
    cases next with
    | none => exact hlacks
    | some a =>
      have hstart : some a ∈ (w.census hs).starts :=
        List.mem_append_right _ (List.mem_filterMap.2 ⟨_, hk, rfl⟩)
      have hsome := h.census.isSome_of_linked (h.census.start_mem_linked hstart)
      exact Option.isSome_iff_ne_none.1 hsome hlacks
  | hazard | newNode | call | unbagged | condemned | uncounted | closing | dropping => exact hlacks

/-- The record that is to be reclaimed next is still there. -/
theorem Run.not_lacks_doomed {m : Run V} {r : Retired} {rs : List Retired}
    {rest : List (Frame V)} (h : m.world.Sound m.holdings)
    (hstack : m.stack = .reclaim (r :: rs) :: rest) : ¬ m.world.Lacks (.doomed r) := by
  apply h.not_lacks
  rw [holdings, hstack]
  exact List.mem_append_left _ (List.mem_cons_self ..)

end Reclaim
