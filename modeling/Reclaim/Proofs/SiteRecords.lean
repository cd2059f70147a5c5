import Reclaim.Domain
import Reclaim.Proofs.RegistryRecords

/-!
Where the retired records are after an operation of a thread. Every operation only moves records:
what it takes in is afterwards in the bag of the thread, in an abandoned bag, or handed back to be
reclaimed. What is handed back is not protected by any hazard record.
-/

set_option autoImplicit false

namespace Reclaim

theorem ok_of_bind_ok {ε α β : Type} {x : Except ε α} {f : α → Except ε β} {b : β}
    (h : x >>= f = .ok b) : ∃ a, x = .ok a ∧ f a = .ok b := by
  cases x with
  | error e => simp [bind, Except.bind] at h
  | ok a => exact ⟨a, rfl, h⟩

def Presence.records : Presence → List Retired
  | .live c | .borrowed c => c.bag.records
  | .absent | .destroyed => []

theorem Presence.records_eq (p : Presence) : p.records = p.context?.elim [] (·.bag.records) := by
  cases p <;> rfl

/-- The retired records that a thread can get at: its own and the abandoned ones. -/
def Site.records (s : Site) : List Retired := s.presence.records ++ s.domain.abandoned.records

namespace Bag

theorem records_single (r : Retired) : (single r).records = [r] := rfl

theorem isEmpty_iff (b : Bag) : b.isEmpty = true ↔ b.records = [] := by
  simp [isEmpty, records]

theorem records_foldl_push (rs : List Retired) (b : Bag) :
    (rs.foldl push b).records = b.records ++ rs := by
  induction rs generalizing b with
  | nil => simp
  | cons r rs ih => simp [ih, records_push]

theorem drainUnprotected_perm (b : Bag) (s : Snapshot) :
    ((b.drainUnprotected s []).2 ++ (b.drainUnprotected s []).1.records).Perm b.records := by
  rw [drainUnprotected_records, drainUnprotected_snd, List.nil_append]
  exact List.perm_append_comm.trans (separate_perm _ _)

theorem records_of_withCapacity {n : Nat} {b : Bag} (h : withCapacity n = .ok b) :
    b.records = [] := by
  unfold withCapacity at h
  split at h
  · obtain rfl := Except.ok.inj h
    rfl
  · simp at h

end Bag

namespace Domain

theorem registry_adopt (d : Domain) : d.adopt.2.registry = d.registry := rfl

theorem abandoned_adopt (d : Domain) : d.adopt.2.abandoned = {} := rfl

theorem adopt_perm (d : Domain) :
    (d.adopt.1.elim [] (·.records)).Perm d.abandoned.records :=
  Abandoned.merged_perm d.abandoned

theorem records_of_abandon {d d' : Domain} {b : Bag} (h : d.abandon b = .ok d') :
    d' = { d with abandoned := d.abandoned.push b } ∧ b.records ≠ [] := by
  unfold abandon at h
  split at h
  · simp at h
  · rename_i hb
    exact ⟨(Except.ok.inj h).symm, fun he => hb ((Bag.isEmpty_iff b).2 he)⟩

end Domain

namespace Abandoned

theorem records_push (l : Abandoned) (b : Bag) : (l.push b).records = b.records ++ l.records := rfl

theorem records_empty : ({} : Abandoned).records = [] := rfl

end Abandoned

namespace Context

theorem adopt_eq (c : Context) (d : Domain) :
    c.adopt d = ({ c with bag := (Abandoned.merged d.abandoned.bags).elim c.bag c.bag.merge },
      { d with abandoned := {} }) := by
  cases h : Abandoned.merged d.abandoned.bags <;>
    simp [adopt, Domain.adopt, Abandoned.takeAndMerge, h]

theorem registry_adopt (c : Context) (d : Domain) : (c.adopt d).2.registry = d.registry := by
  rw [adopt_eq]

theorem adopt_perm (c : Context) (d : Domain) :
    ((c.adopt d).1.bag.records ++ (c.adopt d).2.abandoned.records).Perm
      (c.bag.records ++ d.abandoned.records) := by
  have hperm := d.adopt_perm
  rw [adopt_eq]
  simp only [Abandoned.records_empty, List.append_nil]
  cases h : Abandoned.merged d.abandoned.bags with
  | none =>
    simp only [Domain.adopt, Abandoned.takeAndMerge, h, Option.elim_none] at hperm
    simpa using hperm.append_left c.bag.records
  | some bag =>
    simp only [Domain.adopt, Abandoned.takeAndMerge, h, Option.elim_some] at hperm
    exact (Bag.merge_perm c.bag bag).trans (hperm.append_left _)

theorem scan_perm (c : Context) (d : Domain) :
    ((c.scan d).1 ++ (c.scan d).2.bag.records).Perm c.bag.records :=
  c.bag.drainUnprotected_perm _

theorem scan_unprotected (c : Context) (d : Domain) :
    ∀ r ∈ (c.scan d).1, r.address ∉ d.registry.protectedAddresses := by
  intro r hr hmem
  have hr : r ∈ (separate (fun r => (Snapshot.ofList d.registry.protectedAddresses).covers
      r.address) c.bag.records).2 := by
    simpa [scan, Bag.drainUnprotected_snd] using hr
  have hfree := separate_drained _ _ r hr
  rw [(Snapshot.covers_ofList _ _).2 hmem] at hfree
  exact Bool.noConfusion hfree

/-- The record joins the bag, the abandoned ones follow, and a scan takes out unprotected ones. -/
theorem retire_spec (c : Context) (d : Domain) (r : Retired) :
    (c.retire d r).2.2.registry = d.registry ∧
    ((c.retire d r).1 ++ ((c.retire d r).2.1.bag.records ++
      (c.retire d r).2.2.abandoned.records)).Perm
      (r :: (c.bag.records ++ d.abandoned.records)) ∧
    ∀ x ∈ (c.retire d r).1, x.address ∉ d.registry.protectedAddresses := by
  let c₁ : Context := { c with bag := c.bag.push r }
  have hreg : (c₁.adopt d).2.registry = d.registry := c₁.registry_adopt d
  have hadopt : ((c₁.adopt d).1.bag.records ++ (c₁.adopt d).2.abandoned.records).Perm
      (r :: (c.bag.records ++ d.abandoned.records)) := by
    apply (c₁.adopt_perm d).trans
    simp [c₁, Bag.records_push]
  simp only [retire]
  split
  · refine ⟨hreg, ?_, ?_⟩
    · rw [← List.append_assoc]
      exact ((scan_perm _ _).append_right _).trans hadopt
    · rw [← hreg]
      exact scan_unprotected _ _
  · exact ⟨hreg, hadopt, by simp⟩

theorem flush_spec (c : Context) (d : Domain) :
    (c.flush d).2.2.registry = d.registry ∧
    ((c.flush d).1 ++ ((c.flush d).2.1.bag.records ++ (c.flush d).2.2.abandoned.records)).Perm
      (c.bag.records ++ d.abandoned.records) ∧
    ∀ x ∈ (c.flush d).1, x.address ∉ d.registry.protectedAddresses := by
  have hreg := c.registry_adopt d
  have hadopt := c.adopt_perm d
  simp only [flush]
  split
  · exact ⟨hreg, hadopt, by simp⟩
  · refine ⟨hreg, ?_, ?_⟩
    · rw [← List.append_assoc]
      exact ((scan_perm _ _).append_right _).trans hadopt
    · rw [← hreg]
      exact scan_unprotected _ _

theorem create_spec {d d' : Domain} {c : Context} (h : create d = .ok (c, d')) :
    d'.registry = d.registry ∧
    (c.bag.records ++ d'.abandoned.records).Perm d.abandoned.records := by
  have hperm := d.adopt_perm
  have hreg := d.registry_adopt
  have hempty := d.abandoned_adopt
  unfold create at h
  split at h
  · rename_i bag d₁ hadopt
    obtain ⟨rfl, rfl⟩ := Prod.mk.inj (Except.ok.inj h)
    rw [hadopt] at hperm hreg hempty
    refine ⟨hreg, ?_⟩
    rw [hempty, Abandoned.records_empty, List.append_nil]
    exact hperm
  · rename_i d₁ hadopt
    rw [hadopt] at hperm hreg hempty
    obtain ⟨bag, hbag, heq⟩ := ok_of_bind_ok h
    obtain ⟨rfl, rfl⟩ := Prod.mk.inj (Except.ok.inj heq)
    refine ⟨hreg, ?_⟩
    rw [Bag.records_of_withCapacity hbag, hempty]
    exact hperm

end Context

namespace Site

theorem borrow_of_live {s : Site} {c : Context} (h : s.presence = .live c) :
    s.borrow = some (c, { s with presence := .borrowed c }) := by
  unfold borrow
  rw [h]

theorem borrow_eq_some {s s' : Site} {c : Context} (h : s.borrow = some (c, s')) :
    s.presence = .live c ∧ s' = { s with presence := .borrowed c } := by
  unfold borrow at h
  split at h
  · rename_i hp
    obtain ⟨rfl, rfl⟩ := Prod.mk.inj (Option.some.inj h)
    exact ⟨hp, rfl⟩
  · cases h

theorem borrow_eq_none {s : Site} : s.borrow = none ↔ ∀ c, s.presence ≠ .live c := by
  refine ⟨fun h c hp => ?_, fun h => ?_⟩
  · rw [borrow_of_live hp] at h
    cases h
  · unfold borrow
    split
    · rename_i c hp
      exact absurd hp (h c)
    · rfl

/-- Nothing has changed if nothing was done. -/
theorem giveBack_of_borrow {s s' : Site} {c : Context} (h : s.borrow = some (c, s')) :
    s'.giveBack c = s := by
  obtain ⟨hp, rfl⟩ := borrow_eq_some h
  obtain ⟨d, p⟩ := s
  exact congrArg (Site.mk d) hp.symm

theorem records_of_live {s : Site} {c : Context} (h : s.presence = .live c) :
    s.records = c.bag.records ++ s.domain.abandoned.records := by
  rw [records, h]
  rfl

theorem enter_spec {s s' : Site} (h : s.enter = .ok s') :
    s'.domain.registry = s.domain.registry ∧ s'.records.Perm s.records := by
  unfold enter at h
  split at h
  · rename_i hp
    obtain ⟨⟨c, d⟩, hc, heq⟩ := ok_of_bind_ok h
    obtain rfl := Except.ok.inj heq
    simpa [records, hp, Presence.records] using Context.create_spec hc
  · obtain rfl := Except.ok.inj h
    exact ⟨rfl, .refl _⟩

theorem acquireRecord_spec {s s' : Site} {i : RecordId} (h : s.acquireRecord = .ok (i, s')) :
    Registry.Acquired s.domain.registry i s'.domain.registry ∧ s'.records.Perm s.records := by
  obtain ⟨s₁, hs₁, h⟩ := ok_of_bind_ok h
  obtain ⟨hreg, hrec⟩ := enter_spec hs₁
  have hactivated := s₁.domain.registry.activated_acquired
  rw [← hreg]
  dsimp only at h
  split at h
  · rename_i c s₂ hborrow
    obtain ⟨hp, rfl⟩ := borrow_eq_some hborrow
    rw [records_of_live hp] at hrec
    split at h
    · rename_i j cache g hg
      obtain ⟨rfl, rfl⟩ := Prod.mk.inj (Except.ok.inj h)
      exact ⟨Registry.acquired_of_takeCached hg, hrec⟩
    · obtain ⟨rfl, rfl⟩ := Prod.mk.inj (Except.ok.inj h)
      exact ⟨hactivated, hrec⟩
  · obtain ⟨rfl, rfl⟩ := Prod.mk.inj (Except.ok.inj h)
    exact ⟨hactivated, hrec⟩

theorem cacheRecord_spec {s s' : Site} {i : RecordId} (h : s.cacheRecord i = .ok s') :
    s'.domain.registry = s.domain.registry ∧ s'.records.Perm s.records := by
  obtain ⟨s₁, hs₁, h⟩ := ok_of_bind_ok h
  have hspec := enter_spec hs₁
  split at h
  · rename_i c s₂ hborrow
    obtain ⟨hp, rfl⟩ := borrow_eq_some hborrow
    obtain rfl := Except.ok.inj h
    have hbag : (c.cacheRecord i).bag = c.bag := by
      unfold Context.cacheRecord
      split <;> rfl
    simpa [giveBack, records, hp, Presence.records, hbag] using hspec
  · obtain rfl := Except.ok.inj h
    exact hspec

theorem retiredCount_spec {s s' : Site} {n : Nat} (h : s.retiredCount = .ok (n, s')) :
    s'.domain.registry = s.domain.registry ∧ s'.records.Perm s.records := by
  obtain ⟨s₁, hs₁, h⟩ := ok_of_bind_ok h
  split at h
  · rename_i c s₂ hborrow
    obtain ⟨-, rfl⟩ := Prod.mk.inj (Except.ok.inj h)
    rw [giveBack_of_borrow hborrow]
    exact enter_spec hs₁
  · obtain ⟨-, rfl⟩ := Prod.mk.inj (Except.ok.inj h)
    exact enter_spec hs₁

theorem retire_spec {s s' : Site} {r : Retired} {rs : List Retired}
    (h : s.retire r = .ok (rs, s')) :
    s'.domain.registry = s.domain.registry ∧ (rs ++ s'.records).Perm (r :: s.records) ∧
      ∀ x ∈ rs, x.address ∉ s.domain.registry.protectedAddresses := by
  obtain ⟨s₁, hs₁, h⟩ := ok_of_bind_ok h
  obtain ⟨hreg, hrec⟩ := enter_spec hs₁
  rw [← hreg]
  dsimp only at h
  split at h
  · rename_i c s₂ hborrow
    obtain ⟨hp, rfl⟩ := borrow_eq_some hborrow
    obtain ⟨rfl, rfl⟩ := Prod.mk.inj (Except.ok.inj h)
    obtain ⟨hreg', hperm, hfree⟩ := c.retire_spec s₁.domain r
    rw [records_of_live hp] at hrec
    exact ⟨hreg', hperm.trans (hrec.cons r), hfree⟩
  · obtain ⟨d, hd, heq⟩ := ok_of_bind_ok h
    obtain ⟨rfl, rfl⟩ := Prod.mk.inj (Except.ok.inj heq)
    obtain ⟨rfl, -⟩ := Domain.records_of_abandon hd
    refine ⟨rfl, ?_, by simp⟩
    simp only [records, Abandoned.records_push, Bag.records_single, List.nil_append]
    exact List.perm_middle.trans (hrec.cons r)

theorem flush_spec {s s' : Site} {rs : List Retired} (h : s.flush = .ok (rs, s')) :
    s'.domain.registry = s.domain.registry ∧ (rs ++ s'.records).Perm s.records ∧
      ∀ x ∈ rs, x.address ∉ s.domain.registry.protectedAddresses := by
  obtain ⟨s₁, hs₁, h⟩ := ok_of_bind_ok h
  obtain ⟨hreg, hrec⟩ := enter_spec hs₁
  rw [← hreg]
  dsimp only at h
  split at h
  · rename_i c s₂ hborrow
    obtain ⟨hp, rfl⟩ := borrow_eq_some hborrow
    obtain ⟨rfl, rfl⟩ := Prod.mk.inj (Except.ok.inj h)
    obtain ⟨hreg', hperm, hfree⟩ := c.flush_spec s₁.domain
    rw [records_of_live hp] at hrec
    exact ⟨hreg', hperm.trans hrec, hfree⟩
  · obtain ⟨rfl, rfl⟩ := Prod.mk.inj (Except.ok.inj h)
    exact ⟨rfl, hrec, by simp⟩

/-- The bag of a context that is destroyed leaves the thread with what was not handed back. -/
theorem leave_spec (s : Site) :
    s.leave.2.2.domain.registry = s.domain.registry ∧
    (s.leave.1 ++ (s.leave.2.1.elim [] (·.records) ++ s.leave.2.2.records)).Perm s.records ∧
      ∀ x ∈ s.leave.1, x.address ∉ s.domain.registry.protectedAddresses := by
  unfold leave
  split
  · rename_i c hc
    have hrecords : s.records = c.bag.records ++ s.domain.abandoned.records := by
      rw [records, Presence.records_eq, hc]
      rfl
    rw [hrecords]
    exact c.flush_spec s.domain
  · exact ⟨rfl, .refl _, by simp⟩

end Site
end Reclaim
