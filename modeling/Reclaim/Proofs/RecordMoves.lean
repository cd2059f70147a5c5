import Reclaim.Proofs.BagBounds
import Reclaim.Proofs.ConfinedSteps
import Reclaim.Proofs.Conservation
import Reclaim.Proofs.RaisedPanics

/-!
What a step does with retired records. As long as the thread has its context, what it retires and
what was abandoned goes into its bag, and only then records are handed out to be reclaimed; once
the context is gone, what the thread retires is abandoned and nothing is handed out
(`Site.Moves`, `Run.step_moves`).
-/

set_option autoImplicit false

namespace Reclaim
variable {V : Type}

/-- The thread has its bag as before, whatever it remembers of hazard records. -/
inductive Presence.SameBag : Presence → Presence → Prop where
  | absent : SameBag .absent .absent
  | live {c c' : Context} : c'.bag = c.bag → SameBag (.live c) (.live c')
  | borrowed {c : Context} : SameBag (.borrowed c) (.borrowed c)
  | destroyed : SameBag .destroyed .destroyed

namespace Presence.SameBag
variable {p p₁ p' : Presence}

theorem refl (p : Presence) : p.SameBag p := by
  cases p with
  | absent => exact .absent
  | live c => exact .live rfl
  | borrowed c => exact .borrowed
  | destroyed => exact .destroyed

theorem trans (h : p.SameBag p₁) (h' : p₁.SameBag p') : p.SameBag p' := by
  cases h with
  | absent | borrowed | destroyed => exact h'
  | live hbag =>
    cases h' with
    | live hbag' => exact .live (hbag'.trans hbag)

theorem records (h : p.SameBag p') : p'.records = p.records := by
  cases h with
  | absent | borrowed | destroyed => rfl
  | live hbag => exact congrArg Bag.records hbag

theorem destroyed_iff (h : p.SameBag p') : p' = .destroyed ↔ p = .destroyed := by
  cases h <;> simp

theorem of_live {c : Context} (h : SameBag (.live c) p') :
    ∃ c', p' = .live c' ∧ c'.bag = c.bag := by
  cases h with
  | live hbag => exact ⟨_, rfl, hbag⟩

end Presence.SameBag

/-- The context is not to be had, since an operation is at work on it or since it is gone. -/
def Presence.IsWithheld (p : Presence) : Prop := p ≠ .absent ∧ ∀ c, p ≠ .live c

namespace Presence.IsWithheld
variable {p p' : Presence}

theorem eq_of_sameBag (h : p'.IsWithheld) (hsame : p.SameBag p') : p' = p := by
  cases hsame with
  | absent | borrowed | destroyed => rfl
  | live => exact absurd rfl (h.2 _)

theorem destroyed (h : p.IsWithheld) (hfree : p.IsFree) : p = .destroyed := by
  cases p with
  | absent => exact absurd rfl h.1
  | live c => exact absurd rfl (h.2 c)
  | borrowed c => exact absurd rfl (hfree c)
  | destroyed => rfl

end Presence.IsWithheld

/-- `rs` is what a scan has drained from the full bag, or nothing, if no scan was made. -/
def Bag.DrainsTo (full : Bag) (rs : List Retired) (bag : Bag) : Prop :=
  rs = [] ∧ bag = full ∨ ∃ seen, full.drainUnprotected seen [] = (bag, rs)

theorem Bag.DrainsTo.perm {full bag : Bag} {rs : List Retired} (h : full.DrainsTo rs bag) :
    (rs ++ bag.records).Perm full.records := by
  rcases h with ⟨rfl, rfl⟩ | ⟨seen, h⟩
  · exact .refl _
  · have hperm := full.drainUnprotected_perm seen
    rwa [h] at hperm

/-- The thread has taken `new` and everything that was abandoned into its bag, and only then drained
`rs` from it. -/
structure Site.Gathers (s : Site) (new rs : List Retired) (s' : Site) : Prop where
  present : s.presence ≠ .destroyed
  emptied : s'.domain.abandoned.bags = []
  drained : ∃ (c : Context) (full : Bag), s'.presence = .live c ∧
    full.records.Perm (new ++ s.records) ∧ full.DrainsTo rs c.bag

/-- What an operation at a site does with the records `new` that it retires and the records `rs`
that it hands out to be reclaimed. -/
inductive Site.Moves (s : Site) (new rs : List Retired) (s' : Site) : Prop where
  | keep : new = [] → rs = [] → s.presence.SameBag s'.presence →
      s'.domain.abandoned = s.domain.abandoned → Moves s new rs s'
  | gather : s.Gathers new rs s' → Moves s new rs s'
  /-- There is no bag to be had that could take the record in. -/
  | pass (r : Retired) : s.presence.IsWithheld → s'.presence = s.presence → new = [r] → rs = [] →
      s'.domain.abandoned = s.domain.abandoned.push (.single r) → Moves s new rs s'

namespace Site

theorem Gathers.perm {s s' : Site} {new rs : List Retired} (h : s.Gathers new rs s') :
    (rs ++ s'.records).Perm (new ++ s.records) := by
  obtain ⟨c, full, hc, hfull, hdrained⟩ := h.drained
  have habandoned : s'.domain.abandoned.records = [] := by
    rw [Abandoned.records, h.emptied]
    rfl
  rw [records_of_live hc, habandoned, List.append_nil]
  exact hdrained.perm.trans hfull

namespace Moves
variable {s s₁ s' s'' : Site} {new rs : List Retired}

theorem refl (s : Site) : s.Moves [] [] s := .keep rfl rfl (.refl _) rfl

theorem congr (h : s.Moves new rs s') (hp : s''.presence = s'.presence)
    (ha : s''.domain.abandoned = s'.domain.abandoned) : s.Moves new rs s'' := by
  cases h with
  | keep hnew hrs hsame habandoned => exact .keep hnew hrs (hp ▸ hsame) (ha.trans habandoned)
  | gather h =>
    obtain ⟨c, full, hc, hfull, hdrained⟩ := h.drained
    exact .gather ⟨h.present, ha ▸ h.emptied, c, full, hp.trans hc, hfull, hdrained⟩
  | pass r hs hs' hnew hrs habandoned =>
    exact .pass r hs (hp.trans hs') hnew hrs (ha.trans habandoned)

/-- What comes first has at most created the context. -/
theorem gather_after (h : s.Moves [] [] s₁) (h' : s₁.Gathers new rs s') : s.Gathers new rs s' := by
  obtain ⟨c', full', hc', hfull', hdrained'⟩ := h'.drained
  cases h with
  | keep _ _ hsame habandoned =>
    have hrecords : s₁.records = s.records := by
      rw [records, records, habandoned, hsame.records]
    exact ⟨fun hs => h'.present (hsame.destroyed_iff.2 hs), h'.emptied, c', full', hc',
      hrecords ▸ hfull', hdrained'⟩
  | gather h =>
    exact ⟨h.present, h'.emptied, c', full', hc', hfull'.trans (h.perm.append_left new), hdrained'⟩
  | pass r _ _ hnew => cases hnew

theorem trans (h : s.Moves [] [] s₁) (h' : s₁.Moves new rs s') : s.Moves new rs s' := by
  cases h' with
  | gather h' => exact .gather (h.gather_after h')
  | keep hnew hrs hsame' habandoned' =>
    cases h with
    | keep _ _ hsame habandoned =>
      exact .keep hnew hrs (hsame.trans hsame') (habandoned'.trans habandoned)
    | gather h =>
      obtain ⟨c, full, hc, hfull, hdrained⟩ := h.drained
      rw [hc] at hsame'
      obtain ⟨c', hc', hbag⟩ := hsame'.of_live
      subst hnew hrs
      exact .gather ⟨h.present, habandoned' ▸ h.emptied, c', full, hc', hfull, hbag ▸ hdrained⟩
    | pass r _ _ hnew => cases hnew
  | pass r hs₁ hs' hnew hrs habandoned' =>
    cases h with
    | keep _ _ hsame habandoned =>
      have hp := hs₁.eq_of_sameBag hsame
      exact .pass r (hp ▸ hs₁) (hs'.trans hp) hnew hrs (habandoned ▸ habandoned')
    | gather h =>
      obtain ⟨c, full, hc, hfull, hdrained⟩ := h.drained
      exact absurd hc (hs₁.2 c)
    | pass r _ _ hnew => cases hnew

end Moves
end Site

namespace Context

theorem adopt_drains (c : Context) (d : Domain) :
    (c.adopt d).2.abandoned.bags = [] ∧
      (c.adopt d).1.bag.records.Perm (c.bag.records ++ d.abandoned.records) := by
  have hperm := c.adopt_perm d
  have habandoned : (c.adopt d).2.abandoned.records = [] := by
    rw [Abandoned.records, c.bags_adopt d]
    rfl
  rw [habandoned, List.append_nil] at hperm
  exact ⟨c.bags_adopt d, hperm⟩

theorem scan_drains (c : Context) (d : Domain) :
    c.bag.DrainsTo (c.scan d).1 (c.scan d).2.bag :=
  .inr ⟨_, rfl⟩

theorem retire_drains (c : Context) (d : Domain) (r : Retired) :
    ∃ full : Bag, full.records.Perm (r :: (c.bag.records ++ d.abandoned.records)) ∧
      full.DrainsTo (c.retire d r).1 (c.retire d r).2.1.bag := by
  let c₁ : Context := { c with bag := c.bag.push r }
  have hfull : (c₁.adopt d).1.bag.records.Perm (r :: (c.bag.records ++ d.abandoned.records)) := by
    apply (c₁.adopt_drains d).2.trans
    simp [c₁, Bag.records_push]
  refine ⟨(c₁.adopt d).1.bag, hfull, ?_⟩
  simp only [retire]
  split
  · exact scan_drains _ _
  · exact .inl ⟨rfl, rfl⟩

theorem flush_drains (c : Context) (d : Domain) :
    ∃ full : Bag, full.records.Perm (c.bag.records ++ d.abandoned.records) ∧
      full.DrainsTo (c.flush d).1 (c.flush d).2.1.bag := by
  refine ⟨(c.adopt d).1.bag, (c.adopt_drains d).2, ?_⟩
  simp only [flush]
  split
  · exact .inl ⟨rfl, rfl⟩
  · exact scan_drains _ _

end Context

namespace Site
variable {s s' : Site}

/-- A new context takes in what was abandoned. -/
theorem enter_moves (h : s.enter = .ok s') : s.Moves [] [] s' := by
  unfold enter at h
  split at h
  · rename_i hp
    obtain ⟨⟨c, d⟩, hc, heq⟩ := ok_of_bind_ok h
    obtain rfl := Except.ok.inj heq
    have hbags := (Context.create_new hc).2
    have hperm := (Context.create_spec hc).2
    rw [show d.abandoned.records = [] from congrArg (List.flatMap _) hbags,
      List.append_nil] at hperm
    refine .gather ⟨fun hs => Presence.noConfusion (hp.symm.trans hs), hbags, c, c.bag, rfl, ?_,
      .inl ⟨rfl, rfl⟩⟩
    rw [records, hp]
    exact hperm
  · obtain rfl := Except.ok.inj h
    exact .refl s

theorem acquireRecord_moves {i : RecordId} (h : s.acquireRecord = .ok (i, s')) :
    s.Moves [] [] s' := by
  obtain ⟨s₁, hs₁, h⟩ := ok_of_bind_ok h
  refine (enter_moves hs₁).trans ?_
  dsimp only at h
  split at h
  · rename_i c s₂ hborrow
    obtain ⟨hp, rfl⟩ := borrow_eq_some hborrow
    split at h <;> obtain ⟨-, rfl⟩ := Prod.mk.inj (Except.ok.inj h) <;>
      exact .keep rfl rfl (hp ▸ .live rfl) rfl
  · obtain ⟨-, rfl⟩ := Prod.mk.inj (Except.ok.inj h)
    exact .keep rfl rfl (.refl _) rfl

theorem cacheRecord_moves {i : RecordId} (h : s.cacheRecord i = .ok s') : s.Moves [] [] s' := by
  obtain ⟨s₁, hs₁, h⟩ := ok_of_bind_ok h
  refine (enter_moves hs₁).trans ?_
  split at h
  · rename_i c s₂ hborrow
    obtain ⟨hp, rfl⟩ := borrow_eq_some hborrow
    obtain rfl := Except.ok.inj h
    refine .keep rfl rfl (hp ▸ .live ?_) rfl
    unfold Context.cacheRecord
    split <;> rfl
  · obtain rfl := Except.ok.inj h
    exact .refl _

theorem retiredCount_moves {n : Nat} (h : s.retiredCount = .ok (n, s')) : s.Moves [] [] s' := by
  obtain ⟨s₁, hs₁, h⟩ := ok_of_bind_ok h
  split at h
  · rename_i c s₂ hborrow
    obtain ⟨-, rfl⟩ := Prod.mk.inj (Except.ok.inj h)
    rw [giveBack_of_borrow hborrow]
    exact enter_moves hs₁
  · obtain ⟨-, rfl⟩ := Prod.mk.inj (Except.ok.inj h)
    exact enter_moves hs₁

theorem retire_moves {r : Retired} {rs : List Retired} (h : s.retire r = .ok (rs, s')) :
    s.Moves [r] rs s' := by
  obtain ⟨s₁, hs₁, h⟩ := ok_of_bind_ok h
  refine (enter_moves hs₁).trans ?_
  dsimp only at h
  split at h
  · rename_i c s₂ hborrow
    obtain ⟨hp, rfl⟩ := borrow_eq_some hborrow
    obtain ⟨rfl, rfl⟩ := Prod.mk.inj (Except.ok.inj h)
    obtain ⟨full, hfull, hdrained⟩ := c.retire_drains s₁.domain r
    refine .gather ⟨fun hs => Presence.noConfusion (hp.symm.trans hs), c.bags_retire s₁.domain r, _,
      full, rfl, ?_, hdrained⟩
    rwa [records_of_live hp]
  · rename_i hborrow
    obtain ⟨d, hd, heq⟩ := ok_of_bind_ok h
    obtain ⟨rfl, rfl⟩ := Prod.mk.inj (Except.ok.inj heq)
    obtain ⟨rfl, -⟩ := Domain.records_of_abandon hd
    exact .pass r ⟨enter_present hs₁, borrow_eq_none.1 hborrow⟩ rfl rfl rfl rfl

theorem gathers_of_live {c : Context} (hp : s.presence = .live c) :
    s.Gathers [] (c.flush s.domain).1 ⟨(c.flush s.domain).2.2, .live (c.flush s.domain).2.1⟩ := by
  obtain ⟨full, hfull, hdrained⟩ := c.flush_drains s.domain
  refine ⟨fun hs => Presence.noConfusion (hp.symm.trans hs), c.bags_flush s.domain, _, full, rfl,
    ?_, hdrained⟩
  rwa [records_of_live hp]

theorem flush_gathers {rs : List Retired} (h : s.flush = .ok (rs, s'))
    (hs : s.presence ≠ .destroyed) (hfree : s.presence.IsFree) : s.Gathers [] rs s' := by
  obtain ⟨s₁, hs₁, h⟩ := ok_of_bind_ok h
  refine (enter_moves hs₁).gather_after ?_
  obtain ⟨c, hp⟩ := enter_live hs₁ hs hfree
  rw [borrow_of_live hp] at h
  obtain ⟨rfl, rfl⟩ := Prod.mk.inj (Except.ok.inj h)
  exact gathers_of_live hp

theorem flush_moves {rs : List Retired} (h : s.flush = .ok (rs, s')) : s.Moves [] rs s' := by
  obtain ⟨s₁, hs₁, h⟩ := ok_of_bind_ok h
  refine (enter_moves hs₁).trans ?_
  dsimp only at h
  split at h
  · rename_i c s₂ hborrow
    obtain ⟨hp, rfl⟩ := borrow_eq_some hborrow
    obtain ⟨rfl, rfl⟩ := Prod.mk.inj (Except.ok.inj h)
    exact .gather (gathers_of_live hp)
  · obtain ⟨rfl, rfl⟩ := Prod.mk.inj (Except.ok.inj h)
    exact .refl _

end Site

structure World.Moves (w : World V) (t : ThreadId) (new rs : List Retired) (w' : World V) :
    Prop where
  site : (w.site t).Moves new rs (w'.site t)
  retirements : w'.retirements = new ++ w.retirements
  reclamations : w'.reclamations = w.reclamations

namespace World.Moves
variable {w w₁ w' : World V} {t : ThreadId} {new rs : List Retired}

theorem trans (h : w.Moves t [] [] w₁) (h' : w₁.Moves t new rs w') : w.Moves t new rs w' where
  site := h.site.trans h'.site
  retirements := by rw [h'.retirements, h.retirements, List.nil_append]
  reclamations := h'.reclamations.trans h.reclamations

theorem after (h' : w₁.Moves t new rs w') (h : w.Moves t [] [] w₁) : w.Moves t new rs w' :=
  h.trans h'

/-- A change beside threads and abandoned bags. -/
theorem still (hthreads : w'.threads = w.threads)
    (habandoned : w'.domain.abandoned = w.domain.abandoned)
    (hretired : w'.retirements = w.retirements)
    (hreclaimed : w'.reclamations = w.reclamations) : w.Moves t [] [] w' := by
  refine ⟨(Site.Moves.refl (w.site t)).congr ?_ habandoned, hretired, hreclaimed⟩
  rw [World.site, World.site, World.thread, World.thread, hthreads]

theorem refl (w : World V) (t : ThreadId) : w.Moves t [] [] w := .still rfl rfl rfl rfl

theorem atSite {s : Site} (hs : (w.site t).Moves new rs s)
    (hthreads : w'.threads = (w.setSite t s).threads)
    (habandoned : w'.domain.abandoned = s.domain.abandoned)
    (hretired : w'.retirements = new ++ w.retirements)
    (hreclaimed : w'.reclamations = w.reclamations) : w.Moves t new rs w' := by
  refine ⟨hs.congr ?_ habandoned, hretired, hreclaimed⟩
  rw [← w.presence_setSite t s, World.site, World.thread, World.thread, hthreads]

theorem createHazard {h : Hazard} (e : w.createHazard t = .ok (h, w')) : w.Moves t [] [] w' := by
  obtain ⟨i, s, hs, -, rfl⟩ := World.createHazard_eq e
  exact .atSite (Site.acquireRecord_moves hs) rfl rfl rfl rfl

theorem dropHazard {h : Hazard} {r : Option Panic} (e : w.dropHazard t h = (r, w')) :
    w.Moves t [] [] w' := by
  cases World.dropHazard_drops e with
  | refused => exact .refl w t
  | forgotten => exact .still rfl rfl rfl rfl
  | cached registry s _ hs =>
    have hreleased : w.Moves t [] [] (w.released h registry) := .still rfl rfl rfl rfl
    exact hreleased.trans (.atSite (Site.cacheRecord_moves hs) rfl rfl rfl rfl)

/-- A node that is unlinked is yet to be retired. -/
theorem unlinking (w : World V) (t : ThreadId) (h : Hazard) (target : Option Address) (name : Name)
    (q' : Queue) (i : QueueId) (c : CallId) (a : Address) :
    w.Moves t [] [] (((w.publish h target).2.setQueue name q').noteUnlinked i c a) := by
  refine .still ?_ ?_ (World.retirements_noteUnlinked ..) (World.reclamations_noteUnlinked ..) <;>
    rw [World.noteUnlinked_eq] <;> rfl

end World.Moves

def Frame.isParting : Frame V → Bool
  | .leave | .abandonRest _ | .finishExit _ => true
  | _ => false

structure Frame.Carry (fs : List (Frame V)) (rs : List Retired) : Prop where
  remainder : fs.flatMap Frame.remainder = rs
  plain : fs.any Frame.isParting = false

section transitions
variable {t : ThreadId} {w w' : World V} {fs : List (Frame V)} {c : Control V}

theorem Performs.moves {op : Op V} (h : Performs t w op w' fs c)
    (hop : ∀ capacity names, op ≠ .abandon capacity names) :
    ∃ new rs, w.Moves t new rs w' ∧ Frame.Carry fs rs := by
  cases h with
  | answers | panics | strays | overflows | startsEnqueue | startsDequeue =>
    exact ⟨[], [], .refl w t, rfl, rfl⟩
  | installs | creates | stores | publishes | createsQueue | startsWaiting =>
    exact ⟨[], [], .still rfl rfl rfl rfl, rfl, rfl⟩
  | counts n s hs =>
    exact ⟨[], [], .atSite (Site.retiredCount_moves hs) rfl rfl rfl rfl, rfl, rfl⟩
  | flushes rs s hs =>
    exact ⟨[], rs, .atSite (Site.flush_moves hs) rfl rfl rfl rfl, List.append_nil rs, rfl⟩
  | retireOverflows a w₁ p hmark =>
    obtain ⟨e, -, -, -, rfl⟩ := World.markRetired_spec hmark
    exact ⟨[], [], .still rfl rfl rfl rfl, rfl, rfl⟩
  | retires a w₁ rs s hmark hs =>
    obtain ⟨e, -, -, -, rfl⟩ := World.markRetired_spec hmark
    exact ⟨_, rs, .atSite (Site.retire_moves hs) rfl rfl rfl rfl, List.append_nil rs, rfl⟩
  | abandonRefused | abandonFails | abandons => exact absurd rfl (hop _ _)
  | holds h h' w₁ w₂ _ hcreate hpublish =>
    have hcreated : w.Moves t [] [] w₁ := .createHazard hcreate
    rcases hpublish with hnot | ⟨a, hpublish⟩
    · obtain ⟨rfl, rfl⟩ := Prod.mk.inj hnot
      exact ⟨[], [], hcreated.trans (.still rfl rfl rfl rfl), rfl, rfl⟩
    · obtain ⟨rfl, rfl⟩ := Prod.mk.inj hpublish
      exact ⟨[], [], hcreated.trans (.still rfl rfl rfl rfl), rfl, rfl⟩
  | tries h w₁ w₂ a hcreate hdrop =>
    exact ⟨[], [], (World.Moves.createHazard hcreate).trans (.dropHazard hdrop), rfl, rfl⟩
  | drops hazard h w₁ _ hdrop | dropFails hazard h p w₁ _ hdrop =>
    exact ⟨[], [], (World.Moves.dropHazard hdrop).after (.still rfl rfl rfl rfl), rfl, rfl⟩

theorem Empties.moves {s : Slot (Payload V)} (h : Empties w s w' fs) :
    w.Moves t [] [] w' ∧ Frame.Carry fs [] := by
  cases h <;> exact ⟨.still rfl rfl rfl rfl, rfl, rfl⟩

theorem Supplies.carry {queue : Name} {rest : Supply V} {reply : Answer V}
    (h : Supplies queue rest reply fs c) : Frame.Carry fs [] := by
  cases h <;> exact ⟨rfl, rfl⟩

theorem Enqueues.moves {e : EnqueueFrame V} (h : Enqueues t w e w' fs c) :
    w.Moves t [] [] w' ∧ Frame.Carry fs [] := by
  cases h with
  | lost | overflows | strays | fails | helps => exact ⟨.still rfl rfl rfl rfl, rfl, rfl⟩
  | allocates h w₁ _ hcreate =>
    exact ⟨(World.Moves.createHazard hcreate).after (.still rfl rfl rfl rfl), rfl, rfl⟩
  | breaks h a q q' nodes p w₁ _ _ _ hdrop =>
    exact ⟨(World.Moves.dropHazard hdrop).after (.still rfl rfl rfl rfl), rfl, rfl⟩
  | links h a q q' nodes w₁ _ _ _ _ _ hdrop hsupplies =>
    have hdropped : w.Moves t [] [] w₁ :=
      (World.Moves.dropHazard hdrop).after (.still rfl rfl rfl rfl)
    exact ⟨hdropped.trans (.still rfl rfl rfl rfl), hsupplies.carry⟩

theorem Decides.moves {name : Name} {call : CallId} {stage : DequeueStage} {h : Hazard}
    {q : Queue} {found : Option (Payload V)} (hd : Decides w name call stage h w' q found) :
    w.Moves t [] [] w' := by
  cases hd <;> exact .still rfl rfl rfl rfl

theorem Gives.moves {queue : Name} {q : Queue} {goal : Goal V} {v : Option V}
    (h : Gives queue q w goal v w' fs c) : w.Moves t [] [] w' ∧ Frame.Carry fs [] := by
  cases h <;> exact ⟨.still rfl rfl rfl rfl, rfl, rfl⟩

/-- Only a round that unlinks a node does anything with records. -/
theorem Dequeues.moves {d : DequeueFrame V} (h : Dequeues t w d w' fs c) :
    w.Moves t [] [] w' ∧ Frame.Carry fs [] ∨
      ∃ call x q a q' rs, d.stage = .round call x ∧ w.queues.get? d.queue = some q ∧
        q.dequeueRound w.memory.nodes = .unlinked a q' ∧
        w.Moves t [⟨a, .boxed⟩] rs w' ∧ Frame.Carry fs rs := by
  cases h with
  | lost | overflows | strays | fails | helps | again | claimStrays | claimRefused =>
    exact .inl ⟨.still rfl rfl rfl rfl, rfl, rfl⟩
  | begins h w₁ _ _ hcreate =>
    exact .inl ⟨(World.Moves.createHazard hcreate).trans (.still rfl rfl rfl rfl), rfl, rfl⟩
  | unlinkOverflows => exact .inl ⟨.unlinking .., rfl, rfl⟩
  | unlinks call h q q' a rs s hstage hq hround hs =>
    have hunlinked := World.Moves.unlinking w t h q.head d.queue q' q.id call a
    refine .inr ⟨call, h, q, a, q', rs, hstage, hq, hround, ?_, by simp [Frame.remainder], rfl⟩
    exact hunlinked.trans (.atSite (Site.retire_moves hs) rfl rfl rfl rfl)
  | breaks call h q found w₁ _ p hdecides hdrop =>
    exact .inl ⟨hdecides.moves.trans (.dropHazard hdrop), rfl, rfl⟩
  | ends call h q found w₁ w₂ _ _ _ hdecides hdrop hgives =>
    have hdropped : w.Moves t [] [] w₂ := hdecides.moves.trans (.dropHazard hdrop)
    obtain ⟨hgiven, hcarry⟩ := hgives.moves (t := t)
    have hreturned : w.Moves t [] [] (w₂.emit (.returned q.id call (found.map (·.value)))) :=
      hdropped.trans (.still rfl rfl rfl rfl)
    exact .inl ⟨hreturned.trans hgiven, hcarry⟩

/-- A frame that neither reclaims a record nor ends a thread. -/
theorem Proceeds.moves {f : Frame V} (h : Proceeds t w f w' fs c) (hnone : f.remainder = [])
    (hf : f.isParting = false) : ∃ new rs, w.Moves t new rs w' ∧ Frame.Carry fs rs := by
  cases h with
  | scriptOver | acts | acted | answers | chainOver | chainStrays =>
    exact ⟨[], [], .still rfl rfl rfl rfl, rfl, rfl⟩
  | reclaims h =>
    obtain rfl := hnone
    cases h
    exact ⟨[], [], .refl w t, rfl, rfl⟩
  | enqueues h => exact ⟨[], [], h.moves⟩
  | dequeues h =>
    rcases h.moves with hmoves | ⟨-, -, -, a, -, rs, -, -, -, hmoves⟩
    · exact ⟨[], [], hmoves⟩
    · exact ⟨_, rs, hmoves⟩
  | frees i a n w₁ fs _ hempties =>
    obtain ⟨hemptied, hcarry⟩ := hempties.moves (t := t)
    refine ⟨[], [], hemptied.after (.still rfl rfl rfl rfl), ?_, ?_⟩
    · rw [List.flatMap_append, hcarry.remainder]
      rfl
    · rw [List.any_append, hcarry.plain]
      rfl
  | stays | leaves | keepsNothing | abandons | exits => cases hf

end transitions

namespace Run

structure Moves (m : Run V) (new rs : List Retired) (n : Run V) : Prop where
  thread : n.thread = m.thread
  stack : ∃ fs, n.stack = fs ++ m.stack ∧ fs.flatMap Frame.remainder = rs ∧
    fs.any Frame.isParting = false
  world : m.world.Moves m.thread new rs n.world

namespace Moves
variable {m n : Run V} {new rs : List Retired}

theorem push (fs : List (Frame V)) (hrs : fs.flatMap Frame.remainder = rs)
    (hplain : fs.any Frame.isParting = false) (hthread : n.thread = m.thread)
    (hstack : n.stack = fs ++ m.stack) (hworld : m.world.Moves m.thread new rs n.world) :
    m.Moves new rs n :=
  ⟨hthread, ⟨fs, hstack, hrs, hplain⟩, hworld⟩

theorem remainders (h : m.Moves new rs n) : n.remainders = rs ++ m.remainders := by
  obtain ⟨fs, hfs, hrs, -⟩ := h.stack
  rw [Run.remainders, Run.remainders, hfs, List.flatMap_append, hrs]

end Moves

theorem Follows.moves {m n : Run V} {new rs : List Retired}
    (h : Follows (fun w fs _ => m.world.Moves m.thread new rs w ∧ Frame.Carry fs rs) m n) :
    m.Moves new rs n := by
  obtain ⟨hthread, fs, hstack, hworld, hcarry⟩ := h
  exact ⟨hthread, ⟨fs, hstack, hcarry.remainder, hcarry.plain⟩, hworld⟩

section retirements
variable (m : Run V)

/-- A record that may be retired is, unless the context of the thread cannot be created. -/
theorem retire_moves {name : Name} {d : Deleter} {a : Address} {w : World V}
    (hmark : m.world.markRetired name = .ok (a, w)) :
    (∃ rs, m.Moves [⟨a, d⟩] rs (m.retire name d)) ∨
      ∃ p, (m.retire name d).control = .unwind p ∧ m.site.Overflows p ∧
        m.Moves [] [] (m.retire name d) := by
  have hmarked : m.world.Moves m.thread [] [] w ∧ (m.withWorld w).site = m.site := by
    obtain ⟨e, -, -, -, rfl⟩ := World.markRetired_spec hmark
    exact ⟨.still rfl rfl rfl rfl, rfl⟩
  unfold retire
  rw [hmark]
  dsimp only
  split
  · rename_i p hp
    refine .inr ⟨p, rfl, hmarked.2 ▸ Site.retire_error hp, ?_⟩
    exact .push [] rfl rfl rfl rfl hmarked.1
  · rename_i rs s hs
    exact .inl ⟨rs, .push [.reclaim rs, .answering .done] (by simp [Frame.remainder]) rfl rfl rfl
      (hmarked.1.trans (.atSite (Site.retire_moves hs) rfl rfl rfl rfl))⟩

/-- A node that an attempt has unlinked is retired, unless the context cannot be created. -/
theorem unlinked_moves {d : DequeueFrame V} {c : CallId} {h : Hazard} {q q' : Queue} {a : Address}
    (hstage : d.stage = .round c h) (hq : m.world.queues.get? d.queue = some q)
    (hround : q.dequeueRound m.world.memory.nodes = .unlinked a q') :
    (∃ rs, m.Moves [⟨a, .boxed⟩] rs (m.continueDequeue d)) ∨
      ∃ p, (m.continueDequeue d).control = .unwind p ∧ m.site.Overflows p ∧
        m.Moves [] [] (m.continueDequeue d) := by
  obtain ⟨name, stage, goal⟩ := d
  obtain rfl := hstage
  let w := (World.setQueue (m.world.publish h q.head).2 name q').noteUnlinked q.id c a
  have hthreads : w.threads = m.world.threads := by
    dsimp only [w]
    rw [World.noteUnlinked_eq]
    rfl
  have habandoned : w.domain.abandoned = m.world.domain.abandoned := by
    dsimp only [w]
    rw [World.noteUnlinked_eq]
    rfl
  have hunlinked : m.world.Moves m.thread [] [] w :=
    .still hthreads habandoned (World.retirements_noteUnlinked ..)
      (World.reclamations_noteUnlinked ..)
  have hround' : q.dequeueRound (m.world.publish h q.head).2.memory.nodes = .unlinked a q' := hround
  unfold continueDequeue
  dsimp only at hq ⊢
  rw [hq]
  dsimp only
  rw [hround']
  dsimp only
  split
  · rename_i p hp
    obtain ⟨hoverflow, habsent, hbags⟩ := Site.retire_error hp
    refine .inr ⟨p, rfl, ⟨hoverflow, ?_, ?_⟩, .push [_] rfl rfl rfl rfl hunlinked⟩
    · change ((w.threads.get? m.thread).getD {}).presence = .absent at habsent
      rwa [hthreads] at habsent
    · exact habandoned ▸ hbags
  · rename_i rs s hs
    exact .inl ⟨rs, .push [_, _] (by simp [Frame.remainder]) rfl rfl rfl
      (hunlinked.trans (.atSite (Site.retire_moves hs) rfl rfl rfl rfl))⟩

/-- A round that unlinks no node does nothing with records. -/
theorem round_moves {d : DequeueFrame V} {q : Queue} (hq : m.world.queues.get? d.queue = some q)
    (hround : ∀ a q', q.dequeueRound m.world.memory.nodes ≠ .unlinked a q') :
    m.Moves [] [] (m.continueDequeue d) := by
  refine ((m.continueDequeue_dequeues d).imp fun w fs k hdequeues => ?_).moves
  refine hdequeues.moves.resolve_right ?_
  rintro ⟨-, -, q₁, a, q', -, -, hq₁, hround₁, -⟩
  obtain rfl := Option.some.inj (hq.symm.trans hq₁)
  exact hround a q' hround₁

theorem claimStage_moves {d : DequeueFrame V} {c : CallId} {h : Hazard} {a : Address}
    (hstage : d.stage = .unlinked c h a) : m.Moves [] [] (m.continueDequeue d) := by
  refine ((m.continueDequeue_dequeues d).imp fun w fs k hdequeues => ?_).moves
  refine hdequeues.moves.resolve_right ?_
  rintro ⟨c', h', -, -, -, -, hround, -⟩
  cases hstage.symm.trans hround

/-- The deleter of a record that is still there is called, and nothing else happens to records. -/
theorem destroy_spec (r : Retired) (hr : ¬ m.world.Lacks (.doomed r)) :
    (m.destroy r).thread = m.thread ∧ (m.destroy r).world.threads = m.world.threads ∧
      (m.destroy r).world.domain = m.world.domain ∧
      (m.destroy r).world.retirements = m.world.retirements ∧
      (m.destroy r).world.reclamations = r :: m.world.reclamations ∧
      ∃ fs, (m.destroy r).stack = fs ++ m.stack ∧ fs.flatMap Frame.remainder = [] ∧
        fs.any Frame.isParting = false := by
  unfold destroy
  dsimp only
  split
  · split <;> exact ⟨rfl, rfl, rfl, rfl, rfl, [_], rfl, rfl, rfl⟩
  · rename_i hobject
    split
    · unfold dropSlot
      split
      · exact ⟨rfl, rfl, rfl, rfl, rfl, [], rfl, rfl, rfl⟩
      · exact ⟨rfl, rfl, rfl, rfl, rfl, [_], rfl, rfl, rfl⟩
    · rename_i hnode
      exact absurd ⟨hobject, hnode⟩ hr

end retirements

inductive StepMoves (m : Run V) : Prop where
  | abandons (capacity : Nat) (names : List (Option Name)) :
      m.control = .perform (.abandon capacity names) → m.step = m.abandon capacity names →
      StepMoves m
  /-- It works on top of all frames that there are. -/
  | works (new rs : List Retired) : m.Moves new rs m.step → StepMoves m
  /-- It goes on with the innermost frame, or takes it away. -/
  | goesOn (f : Frame V) (rest : List (Frame V)) (new rs : List Retired) : m.stack = f :: rest →
      (m.IsCalm → f.remainder = [] ∧ f.isParting = false) →
      Moves { m with stack := rest } new rs m.step → StepMoves m
  | destroys (r : Retired) (rs : List Retired) (rest : List (Frame V)) :
      m.stack = .reclaim (r :: rs) :: rest →
      m.step = destroy { m with stack := .reclaim rs :: rest, control := .resume } r → StepMoves m
  | parts (f : Frame V) (rest : List (Frame V)) : m.stack = f :: rest → f.isParting = true →
      m.step = proceed { m with stack := rest, control := .resume } f → StepMoves m

theorem step_moves (m : Run V) : m.StepMoves := by
  rcases m.step_cases with hsame | ⟨cue, rest, hcontrol, hstack, hthread, fs, hstep, htransition⟩
  · exact .works [] [] (hsame.symm ▸ .push [] rfl rfl rfl rfl (.refl _ _))
  · generalize hworld : m.step.world = w' at htransition
    generalize m.step.control = c at htransition
    have hworks {new rs : List Retired} (h : m.world.Moves m.thread new rs w')
        (hcarry : Frame.Carry fs rs) : Moves { m with stack := rest } new rs m.step :=
      ⟨hthread, ⟨fs, hstep, hcarry.remainder, hcarry.plain⟩, hworld ▸ h⟩
    have hunwinds {f : Frame V} {p : Panic} (hc : m.control = .unwind p) :
        m.IsCalm → f.remainder = [] ∧ f.isParting = false := fun hcalm => absurd hc (hcalm p)
    cases htransition with
    | @performs op _ _ _ h =>
      by_cases hop : ∃ capacity names, op = .abandon capacity names
      · obtain ⟨capacity, names, rfl⟩ := hop
        exact .abandons capacity names hcontrol (step_of_perform hcontrol)
      · obtain rfl : m.stack = rest := hstack
        obtain ⟨new, rs, hmoves, hcarry⟩ := h.moves fun capacity names he =>
          hop ⟨capacity, names, he⟩
        exact .works new rs (hworks hmoves hcarry)
    | @proceeds f _ _ _ h =>
      have hproceed := step_of_resume hstack hcontrol
      cases hf : f.isParting with
      | true => exact .parts f rest hstack hf hproceed
      | false =>
        cases hremainder : f.remainder with
        | nil =>
          obtain ⟨new, rs, hmoves, hcarry⟩ := h.moves hremainder hf
          exact .goesOn f rest new rs hstack (fun _ => ⟨hremainder, hf⟩) (hworks hmoves hcarry)
        | cons r rs =>
          cases f with
          | reclaim rs' =>
            obtain rfl : rs' = r :: rs := hremainder
            exact .destroys r rs rest hstack hproceed
          | _ => cases hremainder
    | acted a label acts =>
      exact .goesOn _ rest [] [] hstack (fun _ => ⟨rfl, rfl⟩)
        (hworks (.still rfl rfl rfl rfl) ⟨rfl, rfl⟩)
    | passesOn a f =>
      refine .works [] [] ⟨hthread, ⟨[], hstep.trans ?_, rfl, rfl⟩, hworld ▸ .refl _ _⟩
      rw [hstack]
      rfl
    | catches p label acts =>
      exact .goesOn _ rest [] [] hstack (hunwinds hcontrol)
        (hworks (.still rfl rfl rfl rfl) ⟨rfl, rfl⟩)
    | releases p f h =>
      exact .goesOn f rest [] [] hstack (hunwinds hcontrol) (hworks (.dropHazard rfl) ⟨rfl, rfl⟩)
    | passesThrough p f =>
      exact .goesOn f rest [] [] hstack (hunwinds hcontrol) (hworks (.refl _ _) ⟨rfl, rfl⟩)

end Run
end Reclaim
