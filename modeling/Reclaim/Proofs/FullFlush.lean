import Reclaim.Proofs.BagBounds
import Reclaim.Proofs.RegistryPeak
import Reclaim.Proofs.ScriptEnds

/-!
A flush that nothing holds back. Once the other threads have ended and no hazard pointer is left, a
flush takes every record that is still to be reclaimed, wherever it was left, and calls its deleter
(`Run.Reaches.flush_reclaims_all`).
-/

set_option autoImplicit false

namespace Reclaim
variable {V : Type}

theorem Context.flush_kept (c : Context) (d : Domain) :
    ∀ r ∈ (c.flush d).2.1.bag.records, r.address ∈ d.registry.protectedAddresses := by
  intro r hr
  simp only [flush] at hr
  split at hr
  · rename_i hempty
    rw [(Bag.isEmpty_iff _).1 hempty] at hr
    cases hr
  · rw [← c.registry_adopt d]
    exact scan_kept _ _ r hr

theorem Site.flush_drains {s s' : Site} {rs : List Retired} (h : s.flush = .ok (rs, s'))
    (hp : s.presence ≠ .destroyed) (hcontext : s.presence.IsFree)
    (hfree : s.domain.registry.protectedAddresses = []) :
    s'.presence ≠ .absent ∧ s'.presence.records = [] ∧ s'.domain.abandoned.bags = [] := by
  obtain ⟨s₁, hs₁, h⟩ := ok_of_bind_ok h
  obtain ⟨c, hc⟩ := enter_live hs₁ hp hcontext
  obtain ⟨hreg, -⟩ := enter_spec hs₁
  rw [borrow_of_live hc] at h
  obtain ⟨-, rfl⟩ := Prod.mk.inj (Except.ok.inj h)
  refine ⟨Presence.noConfusion, ?_, c.bags_flush s₁.domain⟩
  refine List.eq_nil_iff_forall_not_mem.2 fun r hr => ?_
  have hprotected := c.flush_kept s₁.domain r hr
  rw [hreg, hfree] at hprotected
  cases hprotected

theorem Site.retiredCount_of_empty {s : Site} (hp : s.presence ≠ .absent)
    (hrecords : s.presence.records = []) : s.retiredCount = .ok (0, s) := by
  obtain ⟨d, presence⟩ := s
  cases presence with
  | absent => exact absurd rfl hp
  | live c =>
    have hsize : c.bag.size = 0 := congrArg List.length hrecords
    change Except.ok (c.bag.size, _) = _
    rw [hsize]
    rfl
  | borrowed | destroyed => rfl

namespace World

theorem bagged_eq_nil {w : World V} (h : ∀ t, (w.thread t).presence.records = []) :
    w.bagged = [] := by
  refine List.flatMap_eq_nil_iff.2 fun th hth => ?_
  obtain ⟨t, ht⟩ := Table.mem_values.1 hth
  have hrecords := h t
  rwa [thread, ht] at hrecords

theorem presence_records_of_bagged {w : World V} (h : w.bagged = []) (t : ThreadId) :
    (w.thread t).presence.records = [] := by
  rw [thread]
  cases ht : w.threads.get? t with
  | none => rfl
  | some th => exact List.flatMap_eq_nil_iff.1 h th (Table.mem_values.2 ⟨t, ht⟩)

/-- The number of records that are out of all bags for good: reclaimed, or handed to a
reclamation. -/
def resolved (w : World V) (hs : List (Holding V)) : Nat :=
  w.reclamations.length + (hs.filterMap Holding.doomed?).length

end World

namespace Effect
variable {g : Registry} {w w' : World V} {hs hs' : List (Holding V)}

theorem resolved_le (e : Effect False g w hs w' hs') (hlacks : ∀ k ∈ hs, ¬ w.Lacks k) :
    w.resolved hs ≤ w'.resolved hs' := by
  have hkeep {w' : World V} {hs' : List (Holding V)} (hr : w'.reclamations = w.reclamations)
      (hd : (hs.filterMap Holding.doomed?).length ≤ (hs'.filterMap Holding.doomed?).length) :
      w.resolved hs ≤ w'.resolved hs' := by
    rw [World.resolved, World.resolved, hr]
    omega
  cases e with
  | reorder hp => exact hkeep rfl (Nat.le_of_eq (hp.filterMap _).length_eq)
  | lose hl | giveUp hl => exact hl.elim
  | fault hk hl _ => exact absurd hl (hlacks _ hk)
  | note e he => exact hkeep (World.reclamations_note he) (Nat.le_refl _)
  | scan rs ds ls t s =>
    refine hkeep rfl ?_
    rw [Holding.filterMap_map_append .unbagged _ fun _ => rfl, List.filterMap_append,
      Holding.filterMap_map_append .unbagged _ fun _ => rfl, List.length_append]
    exact Nat.le_add_left _ _
  | abandon b =>
    have hsame := Holding.filterMap_map_append (V := V) .unbagged Holding.doomed? (fun _ => rfl)
    exact hkeep rfl (Nat.le_of_eq (congrArg List.length (hsame _ _)))
  | unlink name q q' a => exact hkeep (World.reclamations_noteUnlinked ..) (Nat.le_refl _)
  | destroyObject | destroyNode => exact Nat.le_of_eq (Nat.succ_add_eq_add_succ _ _).symm
  | _ => exact hkeep rfl (Nat.le_refl _)

end Effect

namespace World
variable {w : World V} {hs : List (Holding V)}

theorem doomed_le_kept (hs : List (Holding V)) :
    (hs.filterMap Holding.doomed?).length ≤ (hs.filterMap Holding.kept?).length := by
  rw [List.length_filterMap_eq_countP, List.length_filterMap_eq_countP]
  refine List.countP_mono_left fun k _ hk => ?_
  cases k with
  | doomed => rfl
  | _ => cases hk

/-- When every record that was retired is out of the bags, the bags are empty. -/
theorem shelves_empty (hperm : w.retirements.Perm (w.account hs))
    (hall : w.retirements.length ≤ w.resolved hs) :
    w.bagged = [] ∧ w.domain.abandoned.records = [] := by
  have hlength := hperm.length_eq
  have hkept := doomed_le_kept hs
  simp only [account, List.length_append] at hlength
  unfold resolved at hall
  constructor <;> refine List.length_eq_zero_iff.1 ?_ <;> omega

/-- With empty bags, what was retired is out of them. -/
theorem resolved_of_empty {rs : List Retired}
    (hperm : w.retirements.Perm (w.account (rs.map .doomed))) (hbagged : w.bagged = [])
    (habandoned : w.domain.abandoned.records = []) :
    w.retirements.length ≤ w.resolved (rs.map .doomed) := by
  have hdoomed : ((rs.map .doomed).filterMap (@Holding.doomed? V)).length = rs.length := by
    rw [List.filterMap_map]
    exact (congrArg List.length (congrFun List.filterMap_eq_map rs)).trans (List.length_map _)
  refine Nat.le_of_eq (hperm.length_eq.trans ?_)
  rw [account, hbagged, habandoned, resolved, List.length_append,
    Effect.filterMap_kept_map .doomed fun _ => rfl, hdoomed]
  rfl

theorem bags_eq_nil {l : Abandoned} (hrecords : l.records = [])
    (hbags : ∀ b ∈ l.bags, b.isEmpty = false) : l.bags = [] := by
  refine List.eq_nil_iff_forall_not_mem.2 fun b hb => ?_
  have hempty := (Bag.isEmpty_iff b).2 (List.flatMap_eq_nil_iff.1 hrecords b hb)
  rw [hbags b hb] at hempty
  cases hempty

end World

namespace Run

/-- A step in which no thread and no queue ends. -/
theorem step_plain {m : Run V} (hcalm : m.IsCalm) (hplain : m.stack.any Frame.isFinal = false) :
    m.step.thread = m.thread ∧ m.step.stack.any Frame.isFinal = false ∧
      m.world.Confined m.thread m.step.world := by
  rcases m.step_confined with hc | ⟨f, rest, hstack, hf, hc⟩ | ⟨f, rest, hstack, hf, -⟩
  · obtain ⟨fs, hfs, hfinal⟩ := hc.stack
    refine ⟨hc.thread, ?_, hc.world⟩
    rw [hfs, List.any_append, hfinal, hplain]
    rfl
  · obtain ⟨fs, hfs, hfinal⟩ := hc.stack
    rw [hstack, List.any_cons, hf hcalm] at hplain
    refine ⟨hc.thread, ?_, hc.world⟩
    rw [hfs, List.any_append, hfinal]
    exact hplain
  · rw [hstack, List.any_cons, hf] at hplain
    cases hplain

/-- The deleter of a record that is there is called, and with it the script of its content. -/
theorem destroy_cases (m : Run V) (r : Retired) (h : ¬ m.world.Lacks (.doomed r)) :
    (m.destroy r).control = .resume ∧ ((m.destroy r).stack = m.stack ∨
      ∃ acts, (m.destroy r).stack = .script acts :: m.stack) := by
  unfold destroy
  dsimp only
  split
  · split <;> exact ⟨rfl, .inr ⟨_, rfl⟩⟩
  · rename_i hobject
    split
    · obtain ⟨hcontrol, -, -, hstack⟩ :=
        dropSlot_cases ((m.eraseNode r.address).emit (.reclaimed r)) _
      exact ⟨hcontrol, hstack⟩
    · rename_i hnode
      exact absurd ⟨hobject, hnode⟩ h

section ends
variable {m : Run V} (hcalm : ∀ k, (m.complete k).IsCalm) (hends : m.ScriptsEnd)
include hcalm hends

theorem reclamation_ends (hsound : ∀ k, (m.complete k).world.Sound (m.complete k).holdings)
    {rs : List Retired} {rest : List (Frame V)} {k : Nat}
    (hstack : (m.complete k).stack = .reclaim rs :: rest)
    (hcontrol : (m.complete k).control = .resume) :
    ∃ i, (m.complete i).control = .resume ∧ (m.complete i).stack = rest := by
  induction rs generalizing k with
  | nil =>
    have hstep := step_of_resume hstack hcontrol
    rw [← complete_succ] at hstep
    refine ⟨k + 1, ?_⟩
    rw [hstep]
    exact ⟨rfl, rfl⟩
  | cons r rs ih =>
    have hstep := step_of_resume hstack hcontrol
    rw [← complete_succ] at hstep
    have hthere := not_lacks_doomed (hsound k) hstack
    obtain ⟨hresumed, hgoes⟩ := destroy_cases
      (push { m.complete k with stack := rest, control := .resume } (.reclaim rs)) r hthere
    have hstep' : m.complete (k + 1) = destroy
      (push { m.complete k with stack := rest, control := .resume } (.reclaim rs)) r := hstep
    rw [← hstep'] at hresumed hgoes
    rcases hgoes with hgoes | ⟨acts, hgoes⟩
    · exact ih hgoes hresumed
    · obtain ⟨i, hi, hrest, -⟩ := script_left hcalm (P := fun _ => True)
        (fun _ _ _ => trivial) hends hgoes trivial
      exact ih hrest hi

end ends

structure Drained (m : Run V) (t : ThreadId) : Prop where
  thread : m.thread = t
  plain : m.stack.any Frame.isFinal = false
  entered : (m.world.thread t).presence ≠ .absent
  bags : ∀ b ∈ m.world.domain.abandoned.bags, b.isEmpty = false
  resolved : m.world.retirements.length ≤ m.world.resolved m.holdings

namespace Drained
variable {m : Run V} {t : ThreadId}

theorem step (h : m.Drained t) (hm : Reaches IsCalm idle m) (hcalm : m.step.IsCalm)
    (hquiet : m.step.world.retirements = m.world.retirements) : m.step.Drained t := by
  obtain ⟨hthread, hplain, hw⟩ := step_plain hm.arrives h.plain
  rw [h.thread] at hw
  have hresolved : m.step.world.Sound m.step.holdings ∧
      m.world.resolved m.holdings ≤ m.step.world.resolved m.step.holdings :=
    (calm_effects hcalm).induct
      (P := fun w hs => w.Sound hs ∧ m.world.resolved m.holdings ≤ w.resolved hs)
      (fun _ _ _ _ e hw => ⟨e.sound hw.1, Nat.le_trans hw.2 (e.resolved_le hw.1.not_lacks)⟩)
      ⟨hm.reachable.sound, Nat.le_refl _⟩
  refine ⟨hthread.trans h.thread, hplain, fun habsent => h.entered (hw.site.entered habsent),
    fun b hb => ?_, ?_⟩
  · exact (hw.site.abandoned b hb).elim (h.bags b) id
  · rw [hquiet]
    exact Nat.le_trans h.resolved hresolved.2

theorem abandoned_eq_nil (h : m.Drained t) (hm : Reaches IsCalm idle m) :
    m.world.bagged = [] ∧ m.world.domain.abandoned.bags = [] := by
  obtain ⟨hbagged, habandoned⟩ := World.shelves_empty hm.account_perm h.resolved
  exact ⟨hbagged, World.bags_eq_nil habandoned h.bags⟩

theorem count_eq_zero (h : m.Drained t) (hm : Reaches IsCalm idle m) :
    (m.world.count t).1 = .ok 0 := by
  have hrecords := World.presence_records_of_bagged (h.abandoned_eq_nil hm).1 t
  have hcount : (m.world.site t).retiredCount = .ok (0, m.world.site t) :=
    Site.retiredCount_of_empty h.entered hrecords
  rw [World.count, hcount]

theorem reclaimed_all (h : m.Drained t) (hm : Reaches IsCalm idle m)
    (ho : m.outcome.isSome = true) : m.world.reclamations.Perm m.world.retirements := by
  have hperm := hm.account_perm
  obtain ⟨hbagged, habandoned⟩ := World.shelves_empty hperm h.resolved
  rw [World.account, hbagged, habandoned, holdings_of_outcome ho] at hperm
  exact ((List.append_nil _) ▸ hperm).symm

end Drained

/-- When nothing new was retired meanwhile and all is reclaimed, the rest was. -/
theorem Reaches.reclaimed_since {P : Run V → Prop} {m n : Run V} (h : Reaches P m n)
    (hall : n.world.reclamations.Perm n.world.retirements)
    (hquiet : n.world.retirements = m.world.retirements) (hnodup : n.world.reclamations.Nodup) :
    ∃ rs, n.world.reclamations = rs ++ m.world.reclamations ∧ rs.Nodup ∧
      ∀ r, r ∈ rs ↔ r ∈ m.world.retirements ∧ r ∉ m.world.reclamations := by
  obtain ⟨new, hnew⟩ := h.history_suffix
  have hsplit : n.world.reclamations =
      new.filterMap Event.reclaimed? ++ m.world.reclamations := by
    rw [World.reclamations, ← hnew, List.filterMap_append]
    rfl
  obtain ⟨hnew, -, hdisjoint⟩ := List.nodup_append.1 (hsplit ▸ hnodup)
  refine ⟨_, hsplit, hnew, fun r => ?_⟩
  have hmem := hall.mem_iff (a := r)
  rw [hquiet, hsplit, List.mem_append] at hmem
  constructor
  · exact fun hr => ⟨hmem.1 (.inl hr), fun hold => hdisjoint r hr r hold rfl⟩
  · rintro ⟨hretired, hkept⟩
    exact (hmem.2 hretired).resolve_right hkept

section deleters
variable {m : Run V} {r : Retired}

theorem step_reclamations (m : Run V) :
    m.step.world.reclamations = m.world.reclamations ∨ ∃ r, m.Destroys r ∧
      m.step.world.reclamations = r :: m.world.reclamations := by
  have hplain {new : List (Event V)} (h : new.all Event.isPlain = true) :
      new.filterMap Event.reclaimed? = [] := by
    refine List.filterMap_eq_nil_iff.2 fun e he => ?_
    have hnot := List.all_eq_true.1 h e he
    cases e with
    | reclaimed => cases hnot
    | _ => rfl
  rcases m.step_notes with ⟨new, hnew, hnone⟩ | ⟨i, c, v, hends⟩ | ⟨r, hdestroys⟩
  · left
    rw [World.reclamations, hnew, List.filterMap_append, hplain hnone]
    rfl
  · obtain ⟨new, hnew, hnone⟩ := hends.recorded
    left
    rw [World.reclamations, hnew, List.filterMap_cons_none rfl, List.filterMap_append, hplain hnone]
    rfl
  · exact .inr ⟨r, hdestroys, hdestroys.reclamations⟩

theorem destroyed_within {k : Nat} (hr : r ∈ (m.complete k).world.reclamations)
    (hnot : r ∉ m.world.reclamations) : ∃ j < k, (m.complete j).Destroys r := by
  induction k with
  | zero => exact absurd hr hnot
  | succ k ih =>
    by_cases hearlier : r ∈ (m.complete k).world.reclamations
    · obtain ⟨j, hj, hdestroys⟩ := ih hearlier
      exact ⟨j, Nat.lt_succ_of_lt hj, hdestroys⟩
    · rw [complete_succ] at hr
      rcases (m.complete k).step_reclamations with hsame | ⟨r', hdestroys, hnow⟩
      · exact absurd (hsame ▸ hr) hearlier
      · rw [hnow] at hr
        obtain rfl := (List.mem_cons.1 hr).resolve_right hearlier
        exact ⟨k, Nat.lt_succ_self k, hdestroys⟩

theorem reclamations_complete (m : Run V) {i j : Nat} (hij : i ≤ j) :
    (m.complete i).world.reclamations.Sublist (m.complete j).world.reclamations := by
  induction hij with
  | refl => exact .refl _
  | step _ ih =>
    rw [complete_succ]
    exact ih.trans ((step_history _).sublist.filterMap _)

/-- What was reclaimed before is not reclaimed again. -/
theorem Reachable.not_reclaimed_of_destroys (hm : m.Reachable) {i j : Nat}
    (h : (m.complete j).Destroys r) (hij : i ≤ j) : r ∉ (m.complete i).world.reclamations := by
  have hnodup : (m.complete (j + 1)).world.reclamations.Nodup :=
    List.Nodup.of_map _ (hm.complete (j + 1)).nodup_reclamations
  rw [complete_succ, h.reclamations] at hnodup
  exact fun hr => (List.nodup_cons.1 hnodup).1 ((m.reclamations_complete hij).subset hr)

/-- What was reclaimed on the way are the records whose deleters were called, and each of them was
called at one moment. -/
theorem Reachable.reclaimed_within (hm : m.Reachable) {k : Nat} {rs : List Retired}
    (hrs : (m.complete k).world.reclamations = rs ++ m.world.reclamations) (r : Retired) :
    r ∈ rs ↔ ∃! j, j < k ∧ (m.complete j).Destroys r := by
  have hdone {j k : Nat} (hj : j < k) (h : (m.complete j).Destroys r) :
      r ∈ (m.complete k).world.reclamations := by
    refine (m.reclamations_complete (Nat.succ_le_of_lt hj)).subset ?_
    rw [complete_succ, h.reclamations]
    exact List.mem_cons_self ..
  constructor
  · intro hr
    have hnodup : (m.complete k).world.reclamations.Nodup :=
      List.Nodup.of_map _ (hm.complete k).nodup_reclamations
    rw [hrs] at hnodup
    obtain ⟨j, hj, hdestroys⟩ := destroyed_within (hrs ▸ List.mem_append_left _ hr)
      fun hold => (List.nodup_append.1 hnodup).2.2 r hr r hold rfl
    refine ⟨j, ⟨hj, hdestroys⟩, fun j' ⟨_, hdestroys'⟩ => ?_⟩
    rcases Nat.lt_trichotomy j' j with hlt | heq | hlt
    · exact absurd (hdone hlt hdestroys')
        (hm.not_reclaimed_of_destroys hdestroys (Nat.le_refl j))
    · exact heq
    · exact absurd (hdone hlt hdestroys)
        (hm.not_reclaimed_of_destroys hdestroys' (Nat.le_refl j'))
  · rintro ⟨j, ⟨hj, hdestroys⟩, -⟩
    have hnow := hdone hj hdestroys
    rw [hrs] at hnow
    exact (List.mem_append.1 hnow).resolve_right
      (hm.not_reclaimed_of_destroys hdestroys (Nat.zero_le j))

end deleters

def flushBy (m : Run V) (t : ThreadId) : Run V := m.world.begin ⟨t, .perform .flush⟩

theorem isCalm_flushBy (m : Run V) (t : ThreadId) : (m.flushBy t).IsCalm :=
  fun p h => by cases h

theorem flush_of_calm {m : Run V} (h : m.flush.IsCalm) :
    ∃ rs s, m.site.flush = .ok (rs, s) ∧ m.flush = (m.setSite s).reclaiming rs .done := by
  unfold flush at h ⊢
  split at h
  · exact absurd rfl (h _)
  · exact ⟨_, _, ‹_›, rfl⟩

section flush
variable {m : Run V} {t : ThreadId} (hm : Reaches IsCalm idle m) (ho : m.outcome.isSome = true)
  (ht : (m.world.thread t).phase ≠ .exited)
include hm ho ht

theorem not_destroyed : (m.world.thread t).presence ≠ .destroyed := by
  refine hm.orderly.world.running t ?_
  cases hphase : (m.world.thread t).phase with
  | running => rfl
  | exiting => exact absurd hphase (hm.orderly.not_exiting ho t)
  | exited => exact absurd hphase ht

variable (hothers : ∀ t' ≠ t, (m.world.threads.get? t').isSome = true →
    (m.world.thread t').phase = .exited)
  (hfree : m.hazards = [])
include hothers hfree

theorem flush_first (hcalm : (m.flushBy t).step.IsCalm) :
    (m.flushBy t).step.Drained t ∧ ∃ rs, (m.flushBy t).step.control = .resume ∧
      (m.flushBy t).step.stack = [.reclaim rs, .answering .done] := by
  have hreached : Reaches IsCalm idle (m.flushBy t).step :=
    .step (.next _ hm ho ht (isCalm_flushBy m t)) hcalm
  have hprotected : m.world.domain.registry.protectedAddresses = [] := by
    have hperm := Registry.protectedAddresses_perm hm.reachable.ownedBy hm.reachable.counts
    rw [hfree] at hperm
    exact hperm.eq_nil
  obtain ⟨rs, s, hs, hstep⟩ := flush_of_calm (m := m.flushBy t) hcalm
  have hsite : (m.flushBy t).site = ⟨m.world.domain, (m.world.thread t).presence⟩ :=
    congrArg (Site.mk m.world.domain) (congrArg Thread.presence (m.world.thread_enrol t t))
  rw [hsite] at hs
  obtain ⟨hentered, hempty, hbags⟩ :=
    Site.flush_drains hs (not_destroyed hm ho ht) (hm.free t) hprotected
  change (m.flushBy t).step = _ at hstep
  rw [hstep] at hreached ⊢
  have hthread (t' : ThreadId) :
      World.thread ((m.flushBy t).setSite s).world t' =
        if t' = t then { (m.flushBy t).world.thread t with presence := s.presence }
        else m.world.thread t' := by
    refine (World.thread_setSite _ t s t').trans ?_
    split
    · rfl
    · exact m.world.thread_enrol t t'
  have hbagged : ((m.flushBy t).setSite s).world.bagged = [] := by
    refine World.bagged_eq_nil fun t' => ?_
    rw [hthread]
    split
    · exact hempty
    · rename_i ht'
      cases hsome : m.world.threads.get? t' with
      | none =>
        rw [World.thread, hsome]
        rfl
      | some th =>
        exact hm.orderly.world.exited t' (hothers t' ht' (Option.isSome_iff_exists.2 ⟨th, hsome⟩))
  refine ⟨⟨rfl, rfl, ?_, ?_, ?_⟩, rs, rfl, rfl⟩
  · change (World.thread ((m.flushBy t).setSite s).world t).presence ≠ _
    rw [hthread, if_pos rfl]
    exact hentered
  · intro b hb
    change b ∈ s.domain.abandoned.bags at hb
    rw [hbags] at hb
    cases hb
  · have hholdings : (((m.flushBy t).setSite s).reclaiming rs .done).holdings = rs.map .doomed :=
      List.append_nil _
    have habandoned : s.domain.abandoned.records = [] := by
      rw [Abandoned.records, hbags]
      rfl
    have hperm := hreached.account_perm
    rw [hholdings] at hperm ⊢
    exact World.resolved_of_empty hperm hbagged habandoned

/-- Once the other threads have ended and no hazard pointer is left, a flush calls the deleter of
every record that was retired and not reclaimed, and of each at one moment, provided that their
destructors come to their end and retire nothing. Then nothing is abandoned and the bag of the
thread is empty. -/
theorem Reaches.flush_reclaims_all (hcalm : ∀ k, ((m.flushBy t).complete k).IsCalm)
    (hquiet : ∀ k, ((m.flushBy t).complete k).world.retirements = m.world.retirements)
    (hends : (m.flushBy t).ScriptsEnd) :
    ∃ k, let n := (m.flushBy t).complete k
      n.outcome = some (.ok .done) ∧
        (∃ rs, n.world.reclamations = rs ++ m.world.reclamations ∧ rs.Nodup ∧
          (∀ r, r ∈ rs ↔ r ∈ m.world.retirements ∧ r ∉ m.world.reclamations) ∧
          ∀ r, r ∈ rs ↔ ∃! j, j < k ∧ ((m.flushBy t).complete j).Destroys r) ∧
        n.world.reclamations.Perm n.world.retirements ∧
        (n.world.reclamations.map (·.address)).Nodup ∧
        n.world.domain.abandoned.bags = [] ∧ (n.world.count t).1 = .ok 0 := by
  have hreach (k : Nat) : Reaches IsCalm idle ((m.flushBy t).complete k) :=
    .complete (.next _ hm ho ht (isCalm_flushBy m t)) k fun j _ => hcalm j
  have hfirst : (m.flushBy t).complete 1 = (m.flushBy t).step := complete_succ _ 0
  obtain ⟨hdrained₁, rs₁, hcontrol, hstack⟩ :=
    flush_first hm ho ht hothers hfree (hfirst ▸ hcalm 1)
  have hdrained (k : Nat) : ((m.flushBy t).complete (k + 1)).Drained t := by
    induction k with
    | zero => rwa [hfirst]
    | succ k ih =>
      rw [complete_succ]
      refine ih.step (hreach _) ?_ ?_ <;> rw [← complete_succ]
      · exact hcalm _
      · rw [hquiet, hquiet]
  obtain ⟨i, hresumed, hrest⟩ := reclamation_ends hcalm hends (fun k => (hreach k).reachable.sound)
    (hfirst ▸ hstack) (hfirst ▸ hcontrol)
  have hlast := step_of_resume hrest hresumed
  rw [← complete_succ] at hlast
  have hn := hreach (i + 1)
  have hd := hdrained i
  have hdone : ((m.flushBy t).complete (i + 1)).outcome = some (.ok .done) := by
    rw [hlast]
    rfl
  have hover : ((m.flushBy t).complete (i + 1)).outcome.isSome = true := by
    rw [hdone]
    rfl
  have hall := hd.reclaimed_all hn hover
  have haddresses := (hall.map (·.address)).nodup_iff.2 hn.reachable.sound.nodup_retirements
  refine ⟨i + 1, hdone, ?_, hall, haddresses, (hd.abandoned_eq_nil hn).2,
    hd.count_eq_zero hn⟩
  have hsince : Reaches IsCalm m ((m.flushBy t).complete (i + 1)) :=
    .complete (.next _ (.refl hm.arrives) ho ht (isCalm_flushBy m t)) _ fun j _ => hcalm j
  obtain ⟨rs, hrs, hnodup, hmem⟩ := hsince.reclaimed_since hall (hquiet _) haddresses.of_map
  exact ⟨rs, hrs, hnodup, hmem, (hreach 0).reachable.reclaimed_within hrs⟩

end flush

/-- The thread has ended, and left behind a record that was protected at that time, a record that
was retired after its context was destroyed, and a node. The hazard pointer was dropped last. -/
def scattered : Run Nat := idle.following
  (tell 0 9 [.createQueue "queue" .yield, .onQueue "queue" (.enqueue 5 []),
    .onQueue "queue" (.enqueue 6 []),
    .create "guarded" [⟨none, .onQueue "queue" (.enqueue 7 [])⟩], .create "late" [],
    .newHazard "hazard" (some "guarded"), .retire "guarded" .boxed] ++
  [(⟨0, .atExit [⟨none, .retire "late" .custom⟩, ⟨none, .onQueue "queue" .tryDequeue⟩,
    ⟨none, .dropHazard "hazard"⟩]⟩, 9), (⟨0, .exit false⟩, 40)])

theorem scattered_calmly : Reaches IsCalm idle scattered :=
  .following (.refl (by decide)) _ (by decide +kernel)

theorem scattered_reclaimed :
    Reaches IsCalm idle scattered ∧
      scattered.world.domain.abandoned.bags.map (·.records.map (·.address)) = [[2], [1], [5], [4]] ∧
      (∀ k, ((scattered.flushBy 1).complete k).IsCalm) ∧
      (∀ k, ((scattered.flushBy 1).complete k).world.retirements = scattered.world.retirements) ∧
      (scattered.flushBy 1).ScriptsEnd ∧
      ∃ k, let n := (scattered.flushBy 1).complete k
        (∃ rs, n.world.reclamations = rs ++ scattered.world.reclamations ∧ rs.Nodup ∧
          (∀ r, r ∈ rs ↔ r ∈ scattered.world.retirements ∧ r ∉ scattered.world.reclamations) ∧
          ∀ r, r ∈ rs ↔ ∃! j, j < k ∧ ((scattered.flushBy 1).complete j).Destroys r) ∧
        n.world.domain.abandoned.bags = [] ∧ (n.world.count 1).1 = .ok 0 := by
  have hover : ((scattered.flushBy 1).complete 40).outcome.isSome = true := by decide +kernel
  have hcalm : ∀ k, ((scattered.flushBy 1).complete k).IsCalm :=
    forall_complete hover (P := IsCalm) (by decide +kernel)
  have hquiet : ∀ k, ((scattered.flushBy 1).complete k).world.retirements =
      scattered.world.retirements :=
    forall_complete hover (P := fun n => n.world.retirements = scattered.world.retirements)
      (by decide +kernel)
  have hends := scriptsEnd_of_outcome hover
  have hothers : ∀ t' ≠ 1, (scattered.world.threads.get? t').isSome = true →
      (scattered.world.thread t').phase = .exited := by
    intro t' _ ht'
    have hkey : t' ∈ scattered.world.threads.keys := Table.mem_keys.2 ht'
    have hkeys : scattered.world.threads.keys = [0] := by decide +kernel
    rw [hkeys, List.mem_singleton] at hkey
    subst hkey
    decide +kernel
  obtain ⟨k, -, hall, -, -, hbags, hcount⟩ := scattered_calmly.flush_reclaims_all
    (by decide +kernel) (by decide +kernel) hothers (by decide +kernel) hcalm hquiet hends
  exact ⟨scattered_calmly, by decide +kernel, hcalm, hquiet, hends, k, hall, hbags, hcount⟩

end Run
end Reclaim
