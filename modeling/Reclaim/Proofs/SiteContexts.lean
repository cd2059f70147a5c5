import Reclaim.Proofs.SiteRecords
import Reclaim.World.State

/-!
The contexts of threads. Whatever needs the context of a thread creates it first, and fails only
where that fails. A hazard pointer is dropped without creating a context: a thread that has had
one drops it in any case.
-/

set_option autoImplicit false

namespace Reclaim
variable {V : Type}

theorem error_of_bind_error {ε α β : Type} {x : Except ε α} {f : α → Except ε β} {e : ε}
    (h : x >>= f = .error e) : x = .error e ∨ ∃ a, x = .ok a ∧ f a = .error e := by
  cases x with
  | error e' =>
    obtain rfl := Except.error.inj h
    exact .inl rfl
  | ok a => exact .inr ⟨a, rfl, h⟩

/-- The second computation does not fail. -/
theorem bind_eq_error {ε α β : Type} {x : Except ε α} {f : α → Except ε β} {e : ε}
    (hf : ∀ a, f a ≠ .error e) : x >>= f = .error e ↔ x = .error e := by
  refine ⟨fun h => ?_, fun h => by rw [h]; rfl⟩
  rcases error_of_bind_error h with hx | ⟨a, -, ha⟩
  · exact hx
  · exact absurd ha (hf a)

theorem Abandoned.bags_of_merged {bags : List Bag} (h : merged bags = none) : bags = [] := by
  cases bags with
  | nil => rfl
  | cons b rest => cases h

theorem Bag.withCapacity_eq_error {n : Nat} {p : Panic} :
    withCapacity n = .error p ↔ p = .capacityOverflow ∧ maxCapacity < n := by
  unfold withCapacity
  split
  · rename_i hfits
    refine ⟨fun h => ?_, fun h => absurd h.2 (Nat.not_lt.2 hfits)⟩
    cases h
  · rename_i hlarge
    exact ⟨fun h => ⟨(Except.error.inj h).symm, Nat.not_le.1 hlarge⟩, fun h => h.1 ▸ rfl⟩

theorem Bag.withCapacity_error {n : Nat} {p : Panic} (h : withCapacity n = .error p) :
    p = .capacityOverflow :=
  (withCapacity_eq_error.1 h).1

theorem Context.create_eq_error {d : Domain} {p : Panic} :
    create d = .error p ↔ p = .capacityOverflow ∧ d.abandoned.bags = [] ∧
      Bag.maxCapacity < d.config.initCache.toNat := by
  unfold create
  split
  · rename_i bag d' hadopt
    have hmerged : Abandoned.merged d.abandoned.bags = some bag := (Prod.mk.inj hadopt).1
    refine ⟨fun h => ?_, fun h => ?_⟩
    · cases h
    · rw [h.2.1] at hmerged
      cases hmerged
  · rename_i hadopt
    have hbags := Abandoned.bags_of_merged (Prod.mk.inj hadopt).1
    refine (bind_eq_error fun _ h => ?_).trans (Bag.withCapacity_eq_error.trans ?_)
    · cases h
    · exact and_congr_right fun _ => (and_iff_right hbags).symm

/-- The context of the thread cannot be created, and there is nothing it could have adopted. -/
def Site.Overflows (s : Site) (p : Panic) : Prop :=
  p = .capacityOverflow ∧ s.presence = .absent ∧ s.domain.abandoned.bags = []

namespace Site
variable {s : Site} {p : Panic}

theorem enter_error (h : s.enter = .error p) : s.Overflows p := by
  unfold enter at h
  split at h
  · rename_i hp
    rcases error_of_bind_error h with hcreate | ⟨_, -, hok⟩
    · obtain ⟨hoverflow, hbags, -⟩ := Context.create_eq_error.1 hcreate
      exact ⟨hoverflow, hp, hbags⟩
    · cases hok
  · cases h

/-- Where there is a context, or was one, there is always a record. -/
theorem acquireRecord_eq_error : s.acquireRecord = .error p ↔ s.enter = .error p :=
  bind_eq_error fun _ h => by
    dsimp only at h
    split at h
    · split at h <;> cases h
    · cases h

theorem cacheRecord_eq_error {i : RecordId} : s.cacheRecord i = .error p ↔ s.enter = .error p :=
  bind_eq_error fun _ h => by split at h <;> cases h

theorem retiredCount_eq_error : s.retiredCount = .error p ↔ s.enter = .error p :=
  bind_eq_error fun _ h => by split at h <;> cases h

theorem retire_eq_error {r : Retired} : s.retire r = .error p ↔ s.enter = .error p :=
  bind_eq_error fun _ h => by
    dsimp only at h
    split at h
    · cases h
    · rcases error_of_bind_error h with habandon | ⟨d, -, h⟩
      -- A bag of one record is not empty.
      · cases habandon
      · cases h

theorem flush_eq_error : s.flush = .error p ↔ s.enter = .error p :=
  bind_eq_error fun _ h => by
    dsimp only at h
    split at h <;> cases h

theorem retire_error {r : Retired} (h : s.retire r = .error p) : s.Overflows p :=
  enter_error (retire_eq_error.1 h)

theorem flush_error (h : s.flush = .error p) : s.Overflows p :=
  enter_error (flush_eq_error.1 h)

end Site

namespace Site
variable {s s' : Site}

theorem enter_present (h : s.enter = .ok s') : s'.presence ≠ .absent := by
  unfold enter at h
  split at h
  · obtain ⟨⟨c, d⟩, -, heq⟩ := ok_of_bind_ok h
    obtain rfl := Except.ok.inj heq
    exact Presence.noConfusion
  · rename_i hp
    obtain rfl := Except.ok.inj h
    exact hp

theorem acquireRecord_present {i : RecordId} (h : s.acquireRecord = .ok (i, s')) :
    s'.presence ≠ .absent := by
  obtain ⟨s₁, hs₁, h⟩ := ok_of_bind_ok h
  dsimp only at h
  split at h
  · split at h <;> obtain ⟨-, rfl⟩ := Prod.mk.inj (Except.ok.inj h) <;>
      exact Presence.noConfusion
  · have hs := enter_present hs₁
    obtain ⟨-, rfl⟩ := Prod.mk.inj (Except.ok.inj h)
    exact hs

theorem retire_present {r : Retired} {rs : List Retired} (h : s.retire r = .ok (rs, s')) :
    s'.presence ≠ .absent := by
  obtain ⟨s₁, hs₁, h⟩ := ok_of_bind_ok h
  dsimp only at h
  split at h
  · obtain ⟨-, rfl⟩ := Prod.mk.inj (Except.ok.inj h)
    exact Presence.noConfusion
  · obtain ⟨d, -, heq⟩ := ok_of_bind_ok h
    have hs := enter_present hs₁
    obtain ⟨-, rfl⟩ := Prod.mk.inj (Except.ok.inj heq)
    exact hs

theorem leave_without {rs : List Retired} (h : s.leave = (rs, none, s')) :
    s.presence.context? = none := by
  unfold leave at h
  split at h
  · cases (Prod.mk.inj (Prod.mk.inj h).2).1
  · assumption

theorem leave_destroyed {rs : List Retired} {bag : Bag} (h : s.leave = (rs, some bag, s')) :
    s'.presence = .destroyed := by
  unfold leave at h
  split at h
  · obtain ⟨-, h⟩ := Prod.mk.inj h
    obtain ⟨-, rfl⟩ := Prod.mk.inj h
    rfl
  · cases h

end Site

namespace World
variable {w w' : World V} {t : ThreadId} {h : Hazard} {p : Panic}

theorem markRetired_spec {n : Name} {a : Address} (h : w.markRetired n = .ok (a, w')) :
    ∃ e, w.records.get? n = some e ∧ e.retired = false ∧ a = e.address ∧
      w' = { w with records := w.records.insert n { e with retired := true } } := by
  obtain ⟨e, he, h⟩ := ok_of_bind_ok h
  have hget : w.records.get? n = some e := by
    unfold resolve at he
    split at he
    · simp at he
    · rename_i e' he'
      split at he
      · simp at he
      · exact (Except.ok.inj he) ▸ he'
  split at h
  · simp [bind, Except.bind] at h
  · rename_i hnot
    obtain ⟨rfl, rfl⟩ := Prod.mk.inj (Except.ok.inj h)
    exact ⟨e, hget, by simpa using hnot, rfl, rfl⟩

theorem records_markAllRetired {names : List (Option Name)} {found : Except Refusal (List Address)}
    (h : w.markAllRetired names = (found, w')) : ∃ records, w' = { w with records } := by
  induction names generalizing w w' found with
  | nil =>
    obtain ⟨-, rfl⟩ := Prod.mk.inj h
    exact ⟨w.records, rfl⟩
  | cons n rest ih =>
    cases n with
    | none =>
      obtain ⟨-, rfl⟩ := Prod.mk.inj h
      exact ⟨w.records, rfl⟩
    | some n =>
      unfold markAllRetired at h
      split at h
      · obtain ⟨-, rfl⟩ := Prod.mk.inj h
        exact ⟨w.records, rfl⟩
      · rename_i b w₁ hmark
        obtain ⟨e, -, -, -, rfl⟩ := markRetired_spec hmark
        split at h <;> rename_i hall <;> obtain ⟨-, rfl⟩ := Prod.mk.inj h <;>
          obtain ⟨records, rfl⟩ := ih hall <;> exact ⟨records, rfl⟩

def HasContext (w : World V) (t : ThreadId) : Prop := (w.thread t).presence ≠ .absent

theorem hasContext_setSite {s : Site} (hs : s.presence ≠ .absent) :
    (w.setSite t s).HasContext t := by
  unfold HasContext thread setSite
  rw [Table.get?_insert_self]
  exact hs

theorem createHazard_eq (e : w.createHazard t = .ok (h, w')) :
    ∃ i s, (w.site t).acquireRecord = .ok (i, s) ∧ h = { record := i } ∧
      w' = (w.setSite t s).emit (.hazardCreated i) := by
  obtain ⟨⟨i, s⟩, hs, heq⟩ := ok_of_bind_ok e
  obtain ⟨rfl, rfl⟩ := Prod.mk.inj (Except.ok.inj heq)
  exact ⟨i, s, hs, rfl, rfl⟩

theorem hasContext_createHazard (e : w.createHazard t = .ok (h, w')) : w'.HasContext t := by
  obtain ⟨i, s, hs, -, rfl⟩ := createHazard_eq e
  exact hasContext_setSite (Site.acquireRecord_present hs)

theorem createHazard_eq_error : w.createHazard t = .error p ↔ (w.site t).enter = .error p := by
  refine (bind_eq_error fun _ h => ?_).trans Site.acquireRecord_eq_error
  cases h

theorem createHazard_active (e : w.createHazard t = .ok (h, w')) :
    w'.domain.registry.isActive h.record = true := by
  obtain ⟨i, s, hs, rfl, rfl⟩ := createHazard_eq e
  obtain ⟨target, hself, -⟩ := (Site.acquireRecord_spec hs).1.records_self
  change s.domain.registry.isActive i = true
  rw [Registry.isActive, hself]
  rfl

def released (w : World V) (h : Hazard) (registry : Registry) : World V :=
  (w.mapRegistry fun _ => registry).emit (.hazardDropped h.record)

inductive Drops (w : World V) (t : ThreadId) (h : Hazard) : Option Panic → World V → Prop where
  | refused (p : Panic) : w.domain.registry.release h.record = .error p → Drops w t h (some p) w
  | forgotten (registry : Registry) (p : Panic) :
      w.domain.registry.release h.record = .ok registry →
      ((w.released h registry).site t).enter = .error p →
      Drops w t h (some p) (w.released h registry)
  | cached (registry : Registry) (s : Site) :
      w.domain.registry.release h.record = .ok registry →
      ((w.released h registry).site t).cacheRecord h.record = .ok s →
      Drops w t h none ((w.released h registry).setSite t s)

theorem dropHazard_drops {r : Option Panic} (e : w.dropHazard t h = (r, w')) :
    w.Drops t h r w' := by
  unfold dropHazard at e
  split at e
  · rename_i p hp
    obtain ⟨rfl, rfl⟩ := Prod.mk.inj e
    exact .refused p hp
  · rename_i registry hr
    dsimp only at e
    split at e
    · rename_i p hp
      obtain ⟨rfl, rfl⟩ := Prod.mk.inj e
      exact .forgotten registry p hr (Site.cacheRecord_eq_error.1 hp)
    · rename_i s hs
      obtain ⟨rfl, rfl⟩ := Prod.mk.inj e
      exact .cached registry s hr hs

theorem queues_of_dropHazard {r : Option Panic} (e : w.dropHazard t h = (r, w')) :
    w'.queues = w.queues := by
  cases dropHazard_drops e <;> rfl

def FailsToDrop (w : World V) (t : ThreadId) (h : Hazard) (p : Panic) : Prop :=
  p = .inactiveRelease ∧ w.domain.registry.isActive h.record = false ∨ (w.site t).Overflows p

theorem dropHazard_error (e : w.dropHazard t h = (some p, w')) : w.FailsToDrop t h p := by
  cases dropHazard_drops e with
  | refused p hp =>
    refine .inl ⟨?_, Registry.isActive_of_release_error hp⟩
    unfold Registry.release at hp
    split at hp
    · cases hp
    · exact (Except.error.inj hp).symm
  | forgotten registry p _ henter =>
    obtain ⟨hoverflow, hpresence, hbags⟩ := Site.enter_error henter
    exact .inr ⟨hoverflow, hpresence, hbags⟩

/-- A hazard pointer that is live goes without a panic where its thread has had a context. -/
theorem dropHazard_eq (hactive : w.domain.registry.isActive h.record = true)
    (hw : w.HasContext t) : w.dropHazard t h = (none, (w.dropHazard t h).2) := by
  refine Prod.ext ?_ rfl
  rcases hdrop : (w.dropHazard t h).1 with _ | p
  · rfl
  · rcases dropHazard_error (Prod.ext hdrop rfl) with ⟨-, hidle⟩ | ⟨-, habsent, -⟩
    · rw [hidle] at hactive
      cases hactive
    · exact absurd habsent hw

end World
end Reclaim
