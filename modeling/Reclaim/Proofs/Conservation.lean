import Reclaim.Proofs.RecordedEvents
import Reclaim.Proofs.Soundness

/-!
Every record that was ever retired is accounted for: its deleter was called, or it is in the bag of
a thread or abandoned, or a reclamation that is under way has yet to come to it. A panic may lose
records, but no deleter is called twice.
-/

set_option autoImplicit false

namespace Reclaim
variable {V : Type}

def Frame.remainder : Frame V → List Retired
  | .reclaim rest => rest
  | _ => []

def Frame.departing : Frame V → List Retired
  | .abandonRest bag => bag.records
  | _ => []

theorem Frame.kept_holdings (f : Frame V) :
    f.holdings.filterMap Holding.kept? = f.departing ++ f.remainder := by
  cases f with
  | enqueue e => obtain ⟨_, _ | _, _, _, _⟩ := e <;> rfl
  | dequeue d => obtain ⟨_, _ | _ | _, _⟩ := d <;> rfl
  | reclaim rest => exact Effect.filterMap_kept_map .doomed (fun _ => rfl) rest
  | abandonRest bag =>
    apply (Effect.filterMap_kept_map .unbagged (fun _ => rfl) bag.records).trans
    exact (List.append_nil _).symm
  | script | acting | answering | dropChain | leave | finishExit => rfl

theorem Effect.account_perm {g : Registry} {w w' : World V} {hs hs' : List (Holding V)}
    (e : Effect False g w hs w' hs') (hsound : w.Sound hs)
    (h : w.retirements.Perm (w.account hs)) : w'.retirements.Perm (w'.account hs') := by
  obtain ⟨new, lost, hret, -, hperm, hlost⟩ := e.balance
  obtain rfl := hlost not_false hsound.not_lacks
  rw [List.append_nil] at hperm
  rw [hret]
  exact (h.append_left new).trans hperm.symm

namespace Run

def remainders (m : Run V) : List Retired := m.stack.flatMap Frame.remainder

def departing (m : Run V) : List Retired := m.stack.flatMap Frame.departing

theorem kept_holdings_perm (m : Run V) :
    (m.holdings.filterMap Holding.kept?).Perm (m.departing ++ m.remainders) := by
  have heach : m.holdings.filterMap Holding.kept? =
      m.stack.flatMap fun f => f.departing ++ f.remainder := by
    rw [holdings, List.filterMap_flatMap]
    exact List.flatMap_congr fun f _ => f.kept_holdings
  rw [heach]
  exact (List.flatMap_append_perm m.stack Frame.departing Frame.remainder).symm

theorem Reaches.account_perm {m : Run V} (h : Reaches IsCalm idle m) :
    m.world.retirements.Perm (m.world.account m.holdings) := by
  have hall : m.world.Sound m.holdings ∧
      m.world.retirements.Perm (m.world.account m.holdings) := by
    refine @of_effects V (fun w hs => w.Sound hs ∧ w.retirements.Perm (w.account hs)) ?_ ?_ m h
    · exact ⟨World.sound_empty, by rw [World.account_empty]; exact .refl _⟩
    · exact fun _ _ _ _ _ e ih => ⟨e.sound ih.1, e.account_perm ih.1 ih.2⟩
  exact hall.2

theorem account_holdings_perm (m : Run V) :
    (m.world.account m.holdings).Perm (m.world.reclamations ++ ((m.world.bagged ++ m.departing) ++
      (m.world.domain.abandoned.records ++ m.remainders))) := by
  apply List.perm_iff_count.2
  intro r
  have hkept := m.kept_holdings_perm.count_eq r
  simp only [World.count_account, List.count_append] at hkept ⊢
  omega

theorem Destroys.reclamations {m : Run V} {r : Retired} (h : m.Destroys r) :
    m.step.world.reclamations = r :: m.world.reclamations := by
  obtain ⟨seen, hseen, hvisible⟩ := h.recorded
  have hnone : seen.filterMap Event.reclaimed? = [] := by
    refine List.filterMap_eq_nil_iff.2 fun e he => ?_
    have hsees := hvisible e he
    cases e with
    | reclaimed => cases hsees
    | _ => rfl
  rw [World.reclamations, hseen, List.filterMap_append, hnone]
  rfl

theorem Reachable.nodup_reclamations {m : Run V} (h : m.Reachable) :
    (m.world.reclamations.map (·.address)).Nodup := by
  have hsubperm : m.world.reclamations.Subperm m.world.retirements :=
    (List.sublist_append_left _ _).subperm.trans h.sound.account
  obtain ⟨l, hperm, hsub⟩ := hsubperm
  exact (hperm.map _).nodup_iff.1 ((hsub.map _).nodup h.sound.nodup_retirements)

theorem Reaches.destroyed {P : Run V → Prop} {m : Run V} (h : Reaches P idle m) {r : Retired}
    (hr : r ∈ m.world.reclamations) :
    ∃ n, Reaches P idle n ∧ Reaches P n.step m ∧ n.Destroys r := by
  obtain ⟨e, he, hreclaimed⟩ := List.mem_filterMap.1 hr
  cases e with
  | reclaimed r' =>
    obtain rfl := Option.some.inj hreclaimed
    obtain ⟨new, l, hl⟩ := List.append_of_mem he
    obtain ⟨n, hn, hnm, hdestroys, -⟩ := h.deleter_called ⟨new, hl.symm⟩
    exact ⟨n, hn, hnm, hdestroys⟩
  | _ => cases hreclaimed

/-- Without a panic every record that was retired is in exactly one place: its deleter was called,
or it is in the bag of a thread context, abandoned, or yet to be reclaimed. With panics it still is
retired once at most, and its deleter is called once at most. -/
theorem Reachable.retirements_conserved {m : Run V} (h : m.Reachable) :
    (Reaches IsCalm idle m →
      m.world.retirements.Perm (m.world.reclamations ++ ((m.world.bagged ++ m.departing) ++
        (m.world.domain.abandoned.records ++ m.remainders)))) ∧
      m.world.reclamations.Subperm m.world.retirements ∧
      (m.world.retirements.map (·.address)).Nodup ∧
      (∀ r ∈ m.world.reclamations,
        ∃ n : Run V, n.Reachable ∧ Reaches (fun _ => True) n.step m ∧ n.Destroys r) ∧
      ∀ (n : Run V) (r : Retired), n.Reachable → Reaches (fun _ => True) n.step m → n.Destroys r →
        r ∉ n.world.reclamations ∧ r ∈ m.world.reclamations := by
  refine ⟨fun hcalm => hcalm.account_perm.trans m.account_holdings_perm, ?_,
    h.sound.nodup_retirements, fun r hr => h.destroyed hr, fun n r hn hnm hdestroys => ?_⟩
  · exact (List.sublist_append_left _ _).subperm.trans h.sound.account
  · have hnow := hdestroys.reclamations
    have hnodup : n.step.world.reclamations.Nodup :=
      List.Nodup.of_map _ (Reachable.nodup_reclamations (Reaches.step hn trivial))
    have hlater : n.step.world.reclamations.Sublist m.world.reclamations :=
      hnm.history_suffix.sublist.filterMap _
    rw [hnow] at hnodup hlater
    exact ⟨(List.nodup_cons.1 hnodup).1, hlater.subset (List.mem_cons_self ..)⟩

/-- A flush has begun to reclaim two records, and the destructor of the first one has retired a
third. -/
def flushing : Run Nat := idle.following
  (tell 0 9 [.install { minRecords := some 9 },
    .create "outer" [⟨none, .retire "inner" .custom⟩], .create "other" [], .create "inner" [],
    .retire "outer" .boxed, .retire "other" .boxed] ++
  tell 0 4 [.flush])

theorem flushing_calmly : Reaches IsCalm idle flushing :=
  .following (.refl (by decide)) _ (by decide +kernel)

theorem flushing_conserved :
    flushing.Reachable ∧ Reaches IsCalm idle flushing ∧
      flushing.world.retirements.map (·.address) = [3, 2, 1] ∧
      flushing.world.reclamations.map (·.address) = [1] ∧
      flushing.world.bagged.map (·.address) = [3] ∧
      flushing.remainders.map (·.address) = [2] ∧
      flushing.world.retirements.Perm (flushing.world.reclamations ++
        ((flushing.world.bagged ++ flushing.departing) ++
          (flushing.world.domain.abandoned.records ++ flushing.remainders))) ∧
      ∃ n : Run Nat, n.Reachable ∧ Reaches (fun _ => True) n.step flushing ∧
        n.Destroys ⟨1, .boxed⟩ := by
  have hm := flushing_calmly.reachable
  obtain ⟨hperm, -, -, hdestroyed, -⟩ := hm.retirements_conserved
  exact ⟨hm, flushing_calmly, by decide +kernel, by decide +kernel, by decide +kernel,
    by decide +kernel, hperm flushing_calmly, hdestroyed _ (by decide +kernel)⟩

end Run
end Reclaim
