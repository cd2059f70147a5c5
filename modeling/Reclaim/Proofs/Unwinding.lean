import Reclaim.Proofs.Conservation

/-!
What a panic leaves behind. On its way through suspended work it drops hazard pointers and changes
nothing else (`World.Released`), and it takes the work along: the records that a suspended
reclamation had yet to come to were taken out of the bag before, nobody has them any more, and
their deleters are never called.
-/

set_option autoImplicit false

namespace Reclaim
variable {V : Type}

namespace World

/-- Nothing but hazard pointers was dropped in between. -/
structure Released (w w' : World V) : Prop where
  memory : w'.memory = w.memory
  queues : w'.queues = w.queues
  phase : ∀ t, (w'.thread t).phase = (w.thread t).phase
  shelved : (w'.bagged ++ w'.domain.abandoned.records).Perm
    (w.bagged ++ w.domain.abandoned.records)
  history : ∃ is : List RecordId, w'.history = is.map .hazardDropped ++ w.history

namespace Released
variable {w w' w₁ : World V}

theorem refl (w : World V) : w.Released w := ⟨rfl, rfl, fun _ => rfl, .refl _, [], rfl⟩

theorem trans (h : w.Released w₁) (h' : w₁.Released w') : w.Released w' := by
  obtain ⟨is, his⟩ := h.history
  obtain ⟨js, hjs⟩ := h'.history
  refine ⟨h'.memory.trans h.memory, h'.queues.trans h.queues,
    fun t => (h'.phase t).trans (h.phase t), h'.shelved.trans h.shelved, js ++ is, ?_⟩
  rw [hjs, his, List.map_append, List.append_assoc]

theorem filterMap_history {β : Type} (h : w.Released w') {f : Event V → Option β}
    (hf : ∀ i, f (.hazardDropped i) = none) :
    w'.history.filterMap f = w.history.filterMap f := by
  obtain ⟨is, his⟩ := h.history
  have hnone : (is.map (Event.hazardDropped (V := V))).filterMap f = [] := by
    simp [List.filterMap_map, hf]
  rw [his, List.filterMap_append, hnone, List.nil_append]

theorem retirements (h : w.Released w') : w'.retirements = w.retirements :=
  h.filterMap_history fun _ => rfl

theorem reclamations (h : w.Released w') : w'.reclamations = w.reclamations :=
  h.filterMap_history fun _ => rfl

theorem settle {t : ThreadId} {s : Site} (h : w.Released w₁)
    (hs : s.records.Perm (w₁.site t).records) : w.Released (w₁.setSite t s) := by
  have hphase : ∀ u, ((w₁.setSite t s).thread u).phase = (w₁.thread u).phase := by
    intro u
    unfold thread setSite
    rw [Table.get?_insert]
    split
    · rename_i hu
      rw [hu]
      rfl
    · rfl
  have hshelved : ((w₁.setSite t s).bagged ++ s.domain.abandoned.records).Perm
      (w₁.bagged ++ w₁.domain.abandoned.records) := by
    apply List.perm_iff_count.2
    intro r
    have hcount := w₁.count_setSite t s r
    have hsame := hs.count_eq r
    rw [List.count_append, List.count_append]
    omega
  exact h.trans ⟨rfl, rfl, hphase, hshelved, [], rfl⟩

end Released

theorem dropHazard_released (w : World V) (t : ThreadId) (h : Hazard) :
    w.Released (w.dropHazard t h).2 := by
  unfold dropHazard
  split
  · exact .refl w
  · rename_i registry _
    have hdropped : w.Released
        ((w.mapRegistry fun _ => registry).emit (.hazardDropped h.record)) :=
      ⟨rfl, rfl, fun _ => rfl, .refl _, [h.record], rfl⟩
    dsimp only
    split
    · exact hdropped
    · rename_i s hs
      exact hdropped.settle (Site.cacheRecord_spec hs).2

/-- Nobody will come to the record any more. -/
structure Forsaken (w : World V) (hs : List (Holding V)) (r : Retired) : Prop where
  sound : w.Sound hs
  retired : r ∈ w.retirements
  gone : r ∉ w.account hs

end World

theorem Effect.forsaken {lossy : Prop} {g : Registry} {w w' : World V} {hs hs' : List (Holding V)}
    {r : Retired} (e : Effect lossy g w hs w' hs') (h : w.Forsaken hs r) : w'.Forsaken hs' r := by
  have hsound := e.sound h.sound
  obtain ⟨new, lost, hret, -, hperm, -⟩ := e.balance
  have hnew : r ∉ new := by
    have hnodup := hsound.nodup_retirements.of_map
    rw [hret] at hnodup
    exact fun hmem => (List.nodup_append.1 hnodup).2.2 r hmem r h.retired rfl
  refine ⟨hsound, hret ▸ List.mem_append_right _ h.retired, fun hmem => ?_⟩
  rcases List.mem_append.1 (hperm.mem_iff.1 (List.mem_append_left _ hmem)) with hmem | hmem
  · exact hnew hmem
  · exact h.gone hmem

namespace Run
variable {m n : Run V} {p : Panic} {f : Frame V} {fs rest : List (Frame V)}

def catches (m : Run V) : Frame V → Bool
  | .acting _ _ => m.isExiting
  | _ => false

theorem unwindThrough_released (m : Run V) (p : Panic) (f : Frame V) (hf : m.catches f = false) :
    ∃ w, m.world.Released w ∧ m.unwindThrough p f = (m.withWorld w).unwind p := by
  have hreleasing (h : Hazard) :
      ∃ w, m.world.Released w ∧ m.releasing h p = (m.withWorld w).unwind p :=
    ⟨_, m.world.dropHazard_released m.thread h, rfl⟩
  have hpass : ∃ w, m.world.Released w ∧ m.unwind p = (m.withWorld w).unwind p :=
    ⟨_, .refl _, rfl⟩
  cases f with
  | acting label rest =>
    have hlive : ¬ m.isExiting = true := ne_true_of_eq_false hf
    rwa [unwindThrough, if_neg hlive]
  | enqueue e =>
    obtain ⟨_, _ | ⟨h, _⟩, _, _, _⟩ := e
    · exact hpass
    · exact hreleasing h
  | dequeue d =>
    obtain ⟨_, _ | ⟨_, h⟩ | ⟨_, h, _⟩, _⟩ := d
    · exact hpass
    · exact hreleasing h
    · exact hreleasing h
  | script | reclaim | answering | dropChain | leave | abandonRest | finishExit => exact hpass

theorem complete_cons (hstack : m.stack = f :: rest) (k : Nat) :
    m.complete (k + 1) = m.step.complete k := by
  have hgoes : m.outcome = none := by
    unfold outcome
    rw [hstack]
  rw [complete, hgoes]

/-- The panic comes out of the suspended work it has passed through. -/
theorem complete_unwind (hc : m.control = .unwind p) (hstack : m.stack = fs ++ rest)
    (hfs : ∀ f ∈ fs, m.catches f = false) :
    ∃ w, m.world.Released w ∧ m.complete fs.length = ⟨w, m.thread, rest, .unwind p⟩ := by
  induction fs generalizing m with
  | nil =>
    obtain ⟨w, t, stack, control⟩ := m
    obtain rfl : stack = rest := hstack
    obtain rfl : control = .unwind p := hc
    exact ⟨w, .refl w, rfl⟩
  | cons f fs ih =>
    obtain ⟨w, t, stack, control⟩ := m
    obtain rfl : stack = f :: (fs ++ rest) := hstack
    obtain rfl : control = .unwind p := hc
    obtain ⟨w₁, hw₁, hstep⟩ := unwindThrough_released ⟨w, t, fs ++ rest, .unwind p⟩ p f
      (hfs f (List.mem_cons_self ..))
    rw [List.length_cons, complete_cons rfl]
    have hcatch : ∀ k ∈ fs, catches ⟨w₁, t, fs ++ rest, .unwind p⟩ k = false := by
      intro k hk
      have hold := hfs k (List.mem_cons_of_mem _ hk)
      have hexit : isExiting ⟨w₁, t, fs ++ rest, .unwind p⟩ =
          isExiting ⟨w, t, f :: (fs ++ rest), .unwind p⟩ :=
        congrArg (· == Phase.exiting) (hw₁.phase t)
      cases k with
      | acting => exact hexit.trans hold
      | _ => rfl
    obtain ⟨w₂, hw₂, hrest⟩ := ih (m := ⟨w₁, t, fs ++ rest, .unwind p⟩) rfl rfl hcatch
    refine ⟨w₂, hw₁.trans hw₂, ?_⟩
    have hsame : step ⟨w, t, f :: (fs ++ rest), .unwind p⟩ = ⟨w₁, t, fs ++ rest, .unwind p⟩ :=
      hstep
    rw [hsame, hrest]

theorem account_of_stack (hstack : m.stack = fs ++ rest) :
    (m.world.account m.holdings).Perm (m.world.account (rest.flatMap Frame.holdings) ++
      (fs.flatMap Frame.holdings).filterMap Holding.kept?) := by
  have hholdings : m.holdings = fs.flatMap Frame.holdings ++ rest.flatMap Frame.holdings := by
    rw [holdings, hstack, List.flatMap_append]
  apply List.perm_iff_count.2
  intro r
  rw [List.count_append, World.count_account, World.count_account, hholdings,
    List.filterMap_append, List.count_append]
  omega

theorem mem_kept_of_remainder {r : Retired} (hr : r ∈ fs.flatMap Frame.remainder) :
    r ∈ (fs.flatMap Frame.holdings).filterMap Holding.kept? := by
  obtain ⟨f, hf, hr⟩ := List.mem_flatMap.1 hr
  rw [List.filterMap_flatMap]
  refine List.mem_flatMap.2 ⟨f, hf, ?_⟩
  rw [f.kept_holdings]
  exact List.mem_append_right _ hr

/-- A panic that leaves through suspended work reclaims nothing and puts nothing back. The records
that a reclamation among this work had yet to come to are lost: whatever happens afterwards, their
deleters are not called, and they are in no bag and not abandoned. -/
theorem Reachable.remainders_lost (h : m.Reachable) (hc : m.control = .unwind p)
    (hstack : m.stack = fs ++ rest) (hfs : ∀ f ∈ fs, m.catches f = false) :
    (m.complete fs.length).control = .unwind p ∧ (m.complete fs.length).stack = rest ∧
      (m.complete fs.length).world.retirements = m.world.retirements ∧
      (m.complete fs.length).world.reclamations = m.world.reclamations ∧
      ((m.complete fs.length).world.bagged ++
          (m.complete fs.length).world.domain.abandoned.records).Perm
        (m.world.bagged ++ m.world.domain.abandoned.records) ∧
      ∀ r ∈ fs.flatMap Frame.remainder, ∀ n : Run V,
        Reaches (fun _ => True) (m.complete fs.length) n →
          r ∈ n.world.retirements ∧
            r ∉ n.world.reclamations ++ ((n.world.bagged ++ n.departing) ++
              (n.world.domain.abandoned.records ++ n.remainders)) := by
  obtain ⟨w, hw, hend⟩ := complete_unwind hc hstack hfs
  have hreach := h.complete fs.length
  rw [hend] at hreach ⊢
  refine ⟨rfl, rfl, hw.retirements, hw.reclamations, hw.shelved, fun r hr n hn => ?_⟩
  have hlost := mem_kept_of_remainder hr
  have haccount := account_of_stack hstack
  have hforsaken : w.Forsaken (rest.flatMap Frame.holdings) r := by
    refine ⟨hreach.sound, ?_, fun hmem => ?_⟩
    · rw [hw.retirements]
      exact h.sound.account.subset (haccount.mem_iff.2 (List.mem_append_right _ hlost))
    · -- The record would be in two places of the account before the panic.
      have hnodup := haccount.nodup_iff.1 h.sound.nodup_account.of_map
      refine (List.nodup_append.1 hnodup).2.2 r ?_ r hlost rfl
      have hsame : (w.account (rest.flatMap Frame.holdings)).Perm
          (m.world.account (rest.flatMap Frame.holdings)) := by
        apply List.perm_iff_count.2
        intro x
        have hshelved := hw.shelved.count_eq x
        rw [List.count_append, List.count_append] at hshelved
        rw [World.count_account, World.count_account, hw.reclamations]
        omega
      exact hsame.mem_iff.1 hmem
  have hlater := hn.keeps (P := fun w hs => w.Forsaken hs r)
    (fun _ _ _ _ _ _ e => e.forsaken) hforsaken
  exact ⟨hlater.retired, fun hmem => hlater.gone (n.account_holdings_perm.mem_iff.2 hmem)⟩

theorem exists_unwind (h : ¬ m.IsCalm) : ∃ p, m.control = .unwind p := by
  simpa only [IsCalm, not_forall, not_not] using h

/-- The destructor of the first of two records that a flush reclaims has panicked. -/
def breaking : Run Nat := idle.following
  (tell 0 9 [.install { minRecords := some 3 }, .create "first" [⟨none, .panic "boom"⟩],
    .create "second" [], .retire "first" .boxed, .retire "second" .boxed] ++
  tell 0 4 [.flush])

theorem breaking_reachable : breaking.Reachable :=
  .following (.refl trivial) _ (by decide +kernel)

def flushedAgain : Run Nat := (breaking.complete 3).following (tell 0 9 [.flush])

theorem flushedAgain_reaches : Reaches (fun _ => True) (breaking.complete 3) flushedAgain :=
  .following (.refl trivial) _ (by decide +kernel)

/-- The second record is retired, not reclaimed, and out of reach of a flush without protections. -/
theorem flushedAgain_loses :
    flushedAgain.Reachable ∧ flushedAgain.outcome.isSome = true ∧ flushedAgain.IsCalm ∧
      flushedAgain.world.domain.registry.protectedAddresses = [] ∧
      flushedAgain.world.retirements.map (·.address) = [2, 1] ∧
      flushedAgain.world.reclamations.map (·.address) = [1] ∧
      flushedAgain.world.bagged = [] ∧ flushedAgain.world.domain.abandoned.records = [] ∧
      flushedAgain.departing = [] ∧ flushedAgain.remainders = [] := by
  refine ⟨Reaches.trans (breaking_reachable.complete 3) flushedAgain_reaches, ?_⟩
  decide +kernel

theorem breaking_lost :
    breaking.Reachable ∧ (∃ p, breaking.control = .unwind p) ∧
      (∀ f ∈ breaking.stack, breaking.catches f = false) ∧
      breaking.remainders = [⟨2, .boxed⟩] ∧
      ∀ n, Reaches (fun _ => True) (breaking.complete breaking.stack.length) n →
        ⟨2, .boxed⟩ ∈ n.world.retirements ∧ ⟨2, .boxed⟩ ∉ n.world.reclamations := by
  have hpanics := exists_unwind (show ¬ breaking.IsCalm by decide +kernel)
  have hfs : ∀ f ∈ breaking.stack, breaking.catches f = false := by decide +kernel
  have hrest : breaking.remainders = [⟨2, .boxed⟩] := by decide +kernel
  obtain ⟨p, hp⟩ := hpanics
  refine ⟨breaking_reachable, ⟨p, hp⟩, hfs, hrest, fun n hn => ?_⟩
  have hlost := (breaking_reachable.remainders_lost hp (List.append_nil _).symm hfs).2.2.2.2.2
  have hmem : ⟨2, .boxed⟩ ∈ breaking.stack.flatMap Frame.remainder :=
    (congrArg (⟨2, .boxed⟩ ∈ ·) hrest).mpr (List.mem_singleton_self _)
  obtain ⟨hretired, hgone⟩ := hlost _ hmem n hn
  exact ⟨hretired, fun hn => hgone (List.mem_append_left _ hn)⟩

end Run
end Reclaim
