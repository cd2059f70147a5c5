import Reclaim.Proofs.Balance

set_option autoImplicit false

namespace Reclaim
variable {V : Type}

structure World.Unreclaimed (w : World V) (hs : List (Holding V)) (a : Address) : Prop where
  held : ∀ r, Holding.doomed r ∈ hs → r.address ≠ a
  called : ∀ r ∈ w.reclamations, r.address ≠ a

namespace World.Unreclaimed
variable {w w' : World V} {hs hs' : List (Holding V)} {a : Address}

theorem mono (h : w.Unreclaimed hs a) (hr : w'.reclamations = w.reclamations)
    (hd : ∀ r, Holding.doomed r ∈ hs' → Holding.doomed r ∈ hs) : w'.Unreclaimed hs' a where
  held r hmem := h.held r (hd r hmem)
  called r hmem := h.called r (hr ▸ hmem)

theorem reclaimed {r : Retired} (h : w.Unreclaimed (.doomed r :: hs) a)
    (hr : w'.reclamations = r :: w.reclamations)
    (hd : ∀ x, Holding.doomed x ∈ hs' → Holding.doomed x ∈ hs) : w'.Unreclaimed hs' a where
  held x hmem := h.held x (List.mem_cons_of_mem _ (hd x hmem))
  called x hmem := by
    rw [hr] at hmem
    rcases List.mem_cons.1 hmem with rfl | hmem
    · exact h.held x (List.mem_cons_self ..)
    · exact h.called x hmem

end World.Unreclaimed

theorem Effect.unreclaimed {lossy : Prop} {g : Registry} {w w' : World V}
    {hs hs' : List (Holding V)} {a : Address} (e : Effect lossy g w hs w' hs') (ha : a ∈ g.protectedAddresses)
    (h : w.Unreclaimed hs a) : w'.Unreclaimed hs' a := by
  cases e with
  | reorder hp => exact h.mono rfl fun r => hp.mem_iff.2
  | fault _ _ hsub => exact h.mono rfl fun r hr => hsub.subset hr
  | note e he => exact h.mono (World.reclamations_note he) fun _ => id
  | scan rs ds ls t s hreg hg hperm hfree =>
    refine ⟨fun r hr => ?_, h.called⟩
    rcases List.mem_append.1 hr with hr | hr
    · obtain ⟨x, hx, hxr⟩ := List.mem_map.1 hr
      obtain rfl := Holding.doomed.inj hxr
      rintro rfl
      exact hfree x hx (hg ▸ ha)
    · refine h.held r (List.mem_append_right _ ?_)
      simpa using hr
  | abandon b => exact h.mono rfl fun r hr => List.mem_append_right _ hr
  | unlink =>
    refine h.mono (World.reclamations_noteUnlinked ..) fun r hr => ?_
    simpa using hr
  | destroyObject => exact h.reclaimed rfl fun _ => id
  | destroyNode => exact h.reclaimed rfl fun r hr => by simpa using hr
  | configure | storeCells | setThread | createRecord | createQueue | condemn | spare | declare
  | settle | acquire | publish | republish | giveName | takeName | release | enter | depart
  | allocate | link | count | setWaiter | help | begin | claimFront | findEmpty | claimDetached
  | missDetached | giveUp | finish | free | freed | vacant
  | drop =>
    exact h.mono rfl fun r hr => by simpa using hr
  | lose => exact h.mono rfl fun r hr => List.mem_cons_of_mem _ hr
  | discard => exact h.mono rfl (by simp)

namespace Run
variable {m n : Run V} {i : RecordId} {a : Address}

def Guards (i : RecordId) (a : Address) (m : Run V) : Prop :=
  ∃ h ∈ m.hazards, h.record = i ∧ h.target = some a

instance (i : RecordId) (a : Address) (m : Run V) : Decidable (m.Guards i a) :=
  inferInstanceAs (Decidable (∃ h ∈ m.hazards, h.record = i ∧ h.target = some a))

theorem Reachable.protected_of_guards (hm : m.Reachable) (hg : m.Guards i a) :
    a ∈ m.world.domain.registry.protectedAddresses := by
  obtain ⟨h, hmem, -, ha⟩ := hg
  exact hm.ownedBy.protected_of_mem hmem ha

theorem Reachable.unreclaimed (hm : m.Reachable) (hnew : a ∉ m.world.retirements.map (·.address)) :
    m.world.Unreclaimed m.holdings a := by
  have hmem {r : Retired} (hr : r ∈ m.world.account m.holdings) : r.address ≠ a := by
    rintro rfl
    exact hnew (List.mem_map_of_mem (hm.account_subperm.subset hr))
  refine ⟨fun r hr => hmem ?_, fun r hr => hmem (List.mem_append_left _ hr)⟩
  have hkept : r ∈ m.holdings.filterMap Holding.kept? := List.mem_filterMap.2 ⟨_, hr, rfl⟩
  simp [World.account, hkept]

theorem unreclaimed_step (hm : m.step.Reachable) (hg : m.step.Guards i a)
    (h : m.world.Unreclaimed m.holdings a) : m.step.world.Unreclaimed m.step.holdings a :=
  m.step_effects.induct (fun _ _ _ _ e => e.unreclaimed (hm.protected_of_guards hg)) h

theorem Reaches.unreclaimed (hm : m.Reachable) (h : m.world.Unreclaimed m.holdings a)
    (hn : Reaches (Guards i a) m n) : n.Reachable ∧ n.world.Unreclaimed n.holdings a := by
  -- The guard stands at the end of each step, so a scan of that step spares the address.
  induction hn with
  | refl => exact ⟨hm, h⟩
  | step _ hg ih =>
    have hstep : Reachable _ := .step ih.1 trivial
    exact ⟨hstep, unreclaimed_step hstep hg ih.2⟩
  | @next n j _ ho hp hg ih =>
    have hnext : Reachable _ := .next j ih.1 ho hp trivial
    have hworld := ih.2
    rw [holdings_of_outcome ho] at hworld
    exact ⟨hnext, (begin_effects n.world j False _).induct
      (fun _ _ _ _ e => e.unreclaimed (hnext.protected_of_guards hg)) hworld⟩

/-- If a hazard pointer protects an address at the end of a step, where nothing was retired before
the step, then no deleter is called for it as long as the hazard pointer stays there. -/
theorem Reachable.not_reclaimed_while_guarded (hm : m.Reachable)
    (hnew : a ∉ m.world.retirements.map (·.address)) (hn : Reaches (Guards i a) m.step n) :
    a ∉ n.world.reclamations.map (·.address) := by
  have hstep : m.step.Reachable := .step hm trivial
  have hfirst : m.step.Guards i a := hn.start
  intro hmem
  obtain ⟨r, hr, hra⟩ := List.mem_map.1 hmem
  have hworld := unreclaimed_step hstep hfirst (hm.unreclaimed hnew)
  exact (hn.unreclaimed hstep hworld).2.called r hr hra

/-- A record is about to be retired that another thread protects. -/
def retiring : Run Nat :=
  let created := (World.begin {} ⟨0, .perform (.create "record" [])⟩).step
  let guarded := (created.world.begin ⟨1, .perform (.newHazard "hazard" (some "record"))⟩).step
  guarded.world.begin ⟨0, .perform (.retire "record" .boxed)⟩

def flushed : Run Nat :=
  (retiring.step.step.step.world.begin ⟨0, .perform .flush⟩).step.step.step

theorem retiring_reachable : retiring.Reachable := by
  refine .next _ (.step (.next _ (.step (.next _ (.refl trivial) ?_ ?_ trivial) trivial) ?_ ?_
    trivial) trivial) ?_ ?_ trivial
  all_goals decide

theorem flushed_guarded : Reaches (Guards 0 1) retiring.step flushed := by
  refine .step (.step (.step (.next _ (.step (.step (.refl ?_) ?_) ?_) ?_ ?_ ?_) ?_) ?_) ?_
  all_goals decide +kernel

theorem flushed_not_reclaimed :
    retiring.Reachable ∧ 1 ∉ retiring.world.retirements.map (·.address) ∧
      Reaches (Guards 0 1) retiring.step flushed ∧
      1 ∈ flushed.world.retirements.map (·.address) ∧
      1 ∉ flushed.world.reclamations.map (·.address) := by
  have hm := retiring_reachable
  have hnew : 1 ∉ retiring.world.retirements.map (·.address) := by decide
  exact ⟨hm, hnew, flushed_guarded, by decide +kernel,
    hm.not_reclaimed_while_guarded hnew flushed_guarded⟩

end Run
end Reclaim
