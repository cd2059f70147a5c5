import Reclaim.Proofs.FreeContexts
import Reclaim.Proofs.RaisedPanics
import Reclaim.Proofs.RegistryPeak

/-!
The record cache of a thread is a shortcut and nothing more. Whatever is in it, records that others
have taken since or one record several times, an acquisition comes to a record that was free, and
allocates one only where a walk over the registry would (`Run.Reachable.acquisition_agrees`).
-/

set_option autoImplicit false

namespace Reclaim
variable {V : Type}

/-- The record `i` was free or comes behind those that were there, and no other changes. A walk over
the registry might have found another record, but makes the same difference otherwise. -/
structure Registry.Serves (g : Registry) (i : RecordId) (g' : Registry) : Prop where
  before : g.records[i]? = some { target := none, active := false } ∨ i = g.records.size
  after : g'.records[i]? = some { target := none, active := true }
  others : ∀ j, j ≠ i → g'.records[j]? = g.records[j]?
  allocates : i = g.records.size ↔ ∀ r ∈ g.records, r.active = true
  agrees : i = g.records.size ↔ g.activated.1 = g.records.size
  size : g'.records.size = g.activated.2.records.size
  active : g'.active = g.activated.2.active
  allocated : g'.allocated = g.activated.2.allocated

namespace Registry.Acquired
variable {g g' g₁ : Registry} {i j : RecordId} {l : List Hazard}

theorem not_all_active {r : HazardRecord} (hr : g.records[i]? = some r) (hidle : r.active = false) :
    ¬ ∀ r ∈ g.records, r.active = true := fun hall =>
  Bool.noConfusion ((hall r (Array.mem_of_getElem? hr)).symm.trans hidle)

theorem allocates_iff (h : g.Acquired i g') :
    i = g.records.size ↔ ∀ r ∈ g.records, r.active = true := by
  cases h with
  | captured r hr hidle =>
    have hi := (Array.getElem?_eq_some_iff.1 hr).1
    exact ⟨fun he => absurd he (Nat.ne_of_lt hi), fun hall => absurd hall (not_all_active hr hidle)⟩
  | allocated hall hi => exact ⟨fun _ => hall, fun _ => hi⟩

/-- Which free record is taken makes no difference to the number of records and to the counters. -/
theorem same_counts (h : g.Acquired i g') (h₁ : g.Acquired j g₁) :
    g'.records.size = g₁.records.size ∧ g'.active = g₁.active ∧ g'.allocated = g₁.allocated := by
  cases h with
  | captured r hr hidle =>
    cases h₁ with
    | captured => exact ⟨by simp [update], rfl, rfl⟩
    | allocated hall => exact absurd hall (not_all_active hr hidle)
  | allocated hall =>
    cases h₁ with
    | captured r hr hidle => exact absurd hall (not_all_active hr hidle)
    | allocated => exact ⟨rfl, rfl, rfl⟩

theorem idle_then_active (h : g.Acquired i g') (ho : g.OwnedBy l) :
    (g.records[i]? = some { target := none, active := false } ∨ i = g.records.size) ∧
      g'.records[i]? = some { target := none, active := true } := by
  cases h with
  | captured r hr hidle =>
    have htarget := ho.idle i r hr hidle
    obtain ⟨target, active⟩ := r
    obtain rfl : active = false := hidle
    obtain rfl : target = none := htarget
    exact ⟨.inl hr, by simp [update, Array.getElem?_modify, hr]⟩
  | allocated hall hi =>
    subst hi
    exact ⟨.inr rfl, by simp [allocate]⟩

theorem serves (h : g.Acquired i g') (ho : g.OwnedBy l) : g.Serves i g' := by
  have hwalk := g.activated_acquired
  obtain ⟨hbefore, hafter⟩ := h.idle_then_active ho
  obtain ⟨hsize, hactive, hallocated⟩ := h.same_counts hwalk
  exact {
    before := hbefore
    after := hafter
    others := fun j hj => h.records_ne hj
    allocates := h.allocates_iff
    agrees := h.allocates_iff.trans hwalk.allocates_iff.symm
    size := hsize
    active := hactive
    allocated := hallocated }

end Registry.Acquired

namespace Site
variable {s s' : Site}

inductive Trades (s : Site) : Site → Prop where
  | refl : Trades s s
  | acquire {s₁ s' : Site} {i : RecordId} : Trades s s₁ → s₁.acquireRecord = .ok (i, s') →
      Trades s s'
  | release {s₁ s' : Site} {i : RecordId} {registry : Registry} : Trades s s₁ →
      s₁.domain.registry.release i = .ok registry →
      cacheRecord { s₁ with domain := { s₁.domain with registry } } i = .ok s' → Trades s s'
  | others {s₁ : Site} (d : Domain) : Trades s s₁ → Trades s { s₁ with domain := d }

theorem enter_cached (h : s.enter = .ok s') : s'.presence.cached = s.presence.cached := by
  unfold enter at h
  split at h
  · rename_i hp
    obtain ⟨⟨c, d⟩, hc, heq⟩ := ok_of_bind_ok h
    obtain rfl := Except.ok.inj heq
    rw [hp]
    exact (Context.create_new hc).1
  · obtain rfl := Except.ok.inj h
    rfl

theorem acquireRecord_cached {i : RecordId} (h : s.acquireRecord = .ok (i, s')) :
    s'.presence.cached <:+ s.presence.cached := by
  obtain ⟨s₁, hs₁, h⟩ := ok_of_bind_ok h
  rw [← enter_cached hs₁]
  dsimp only at h
  split at h
  · rename_i c s₂ hborrow
    obtain ⟨hp, rfl⟩ := borrow_eq_some hborrow
    rw [hp]
    have hsuffix := s₁.domain.registry.takeCached_suffix c.recordCache
    split at h <;> rename_i htake <;> rw [htake] at hsuffix <;>
      obtain ⟨-, rfl⟩ := Prod.mk.inj (Except.ok.inj h) <;> exact hsuffix
  · obtain ⟨-, rfl⟩ := Prod.mk.inj (Except.ok.inj h)
    exact List.suffix_refl _

theorem Trades.length_cached_le (h : s.Trades s')
    (hs : s.presence.cached.length ≤ Context.maxCached) :
    s'.presence.cached.length ≤ Context.maxCached := by
  induction h with
  | refl => exact hs
  | acquire _ hacquire ih => exact (acquireRecord_confined hacquire).cached ih
  | release _ _ hcache ih => exact (cacheRecord_confined hcache).cached ih
  | others d _ ih => exact ih

end Site

/-! The caches of the threads of a program. -/

namespace Run

theorem Reachable.length_cached_le {m : Run V} (h : m.Reachable) (t : ThreadId) :
    (m.world.thread t).presence.cached.length ≤ Context.maxCached :=
  Reaches.kept (P := fun p => p.cached.length ≤ Context.maxCached)
    ⟨Nat.zero_le _, Site.Confined.cached⟩ (Nat.zero_le _) h t

/-- Whatever a thread has in its cache, an acquisition serves it as well as a walk over the
registry, and at most takes entries out of the cache. There is no record for a thread only where its
context cannot be created. The cache has never more entries than there is room for, neither in a
program nor after any acquisitions and releases. -/
theorem Reachable.acquisition_agrees {m : Run V} (hm : m.Reachable) (presence : Presence) :
    let s : Site := ⟨m.world.domain, presence⟩
    ((∃ i s', s.acquireRecord = .ok (i, s') ∧
        s.domain.registry.Serves i s'.domain.registry ∧
        s'.presence.cached <:+ s.presence.cached) ∨
      ∃ p, s.acquireRecord = .error p ∧ s.enter = .error p ∧ s.Overflows p) ∧
    (∀ t, (m.world.thread t).presence.cached.length ≤ Context.maxCached) ∧
    ∀ s', s.Trades s' → s.presence.cached.length ≤ Context.maxCached →
      s'.presence.cached.length ≤ Context.maxCached := by
  intro s
  refine ⟨?_, hm.length_cached_le, fun s' htrades => htrades.length_cached_le⟩
  cases hacquire : s.acquireRecord with
  | ok r =>
    obtain ⟨i, s'⟩ := r
    have hacquired := (Site.acquireRecord_spec hacquire).1
    exact .inl ⟨i, s', rfl, hacquired.serves hm.ownedBy, Site.acquireRecord_cached hacquire⟩
  | error p =>
    have henter := Site.acquireRecord_eq_error.1 hacquire
    exact .inr ⟨p, rfl, henter, Site.enter_error henter⟩

/-- The first thread owns a record that the second still remembers, and has released another. -/
def released : Run Nat := snatched.following (tell 0 9 [.dropHazard "b"])

def forgetful : Context := { config := Config.default, recordCache := [0, 0, 1, 1], bag := .empty }

theorem released_reachable : released.Reachable :=
  .following snatched_reachable _ (by decide +kernel)

theorem released_agrees :
    let s : Site := ⟨released.world.domain, .live forgetful⟩
    released.Reachable ∧ released.hazards.map (·.record) = [0] ∧
      (released.world.thread 1).presence.cached = [0] ∧
      ∃ s', s.acquireRecord = .ok (1, s') ∧ s.domain.registry.Serves 1 s'.domain.registry ∧
        s'.presence.cached = [1] ∧ s.Trades s' ∧
        s'.presence.cached.length ≤ Context.maxCached := by
  intro s
  obtain ⟨hserved, -, hbounded⟩ := released_reachable.acquisition_agrees (.live forgetful)
  have hfirst : s.acquireRecord.toOption.map (fun r => (r.1, r.2.presence.cached)) =
      some (1, [1]) := by decide +kernel
  rcases hserved with ⟨i, s', hacquire, hserves, -⟩ | ⟨p, -, henter, -⟩
  · rw [hacquire] at hfirst
    obtain ⟨rfl, hcached⟩ := Prod.mk.inj (Option.some.inj hfirst)
    have htrades : s.Trades s' := .acquire .refl hacquire
    exact ⟨released_reachable, by decide +kernel, by decide +kernel, s', hacquire, hserves,
      hcached, htrades, hbounded s' htrades (by decide)⟩
  · cases henter

end Run
end Reclaim
