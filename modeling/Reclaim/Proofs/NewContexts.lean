import Reclaim.Proofs.Adoption
import Reclaim.Proofs.InternalChecks
import Reclaim.Proofs.MergedBags

set_option autoImplicit false

namespace Reclaim
variable {V : Type}

/-- A list grows only where it is too short. -/
theorem grown_le {capacity needed n : Nat} (hcapacity : capacity ≤ n) (hneeded : 2 * needed ≤ n)
    (hfour : 4 ≤ n) : grown capacity needed ≤ n := by
  unfold grown
  split <;> omega

namespace Bag

theorem length_records_merge (b other : Bag) :
    (b.merge other).records.length = b.records.length + other.records.length := by
  rw [(b.merge_perm other).length_eq, List.length_append]

theorem capacity_append_le {b other : Bag} {n : Nat} (hb : b.capacity ≤ n)
    (hrecords : 2 * (b.records.length + other.records.length) ≤ n) (hfour : 4 ≤ n) :
    (b.append other.content).capacity ≤ n :=
  grown_le hb hrecords hfour

theorem capacity_merge_le {b other : Bag} {n : Nat} (hb : b.capacity ≤ n)
    (hother : other.capacity ≤ n) (hrecords : 2 * (b.records.length + other.records.length) ≤ n)
    (hfour : 4 ≤ n) : (b.merge other).capacity ≤ n := by
  by_cases h : b.capacity < other.room
  · rw [(merge_of_lt h).1, (merge_of_lt h).2]
    exact hother
  · rw [merge_of_le (Nat.not_lt.1 h)]
    exact capacity_append_le hb hrecords hfour

/-- The list was made of abandoned bags, the newest one first. It is no larger than the lists it was
made of, unless it had to be for its records, and then not much larger than that. -/
structure Inherits (b : Bag) (bags : List Bag) : Prop where
  records : b.records.Perm (bags.flatMap Bag.records)
  nonempty : 0 < b.records.length
  newest : ∀ c ∈ bags.head?, c.capacity ≤ b.capacity
  rooms : ∀ c ∈ bags, c.room ≤ b.capacity
  bounded : ∀ n, 4 ≤ n → 2 * b.records.length ≤ n → (∀ c ∈ bags, c.capacity ≤ n) → b.capacity ≤ n

end Bag

theorem Abandoned.capacity_foldl_merge_le {rest : List Bag} {b : Bag} {n : Nat}
    (hb : b.capacity ≤ n) (hrest : ∀ c ∈ rest, c.capacity ≤ n)
    (hrecords : 2 * (rest.foldl Bag.merge b).records.length ≤ n) (hfour : 4 ≤ n) :
    (rest.foldl Bag.merge b).capacity ≤ n := by
  induction rest generalizing b with
  | nil => exact hb
  | cons c rest ih =>
    have hmerged : 2 * (b.records.length + c.records.length) ≤ n := by
      have hall := (foldl_merge_perm rest (b.merge c)).length_eq
      rw [List.foldl_cons, hall, List.length_append, Bag.length_records_merge] at hrecords
      omega
    have hcapacity := Bag.capacity_merge_le hb (hrest c (List.mem_cons_self ..)) hmerged hfour
    exact ih hcapacity (fun x hx => hrest x (List.mem_cons_of_mem c hx)) hrecords

theorem Abandoned.inherits_merged {bags : List Bag} (hbags : ∀ b ∈ bags, b.isEmpty = false)
    {b : Bag} (h : merged bags = some b) : b.Inherits bags := by
  have hnonempty : b.isEmpty = false := merged_nonempty hbags h
  cases bags with
  | nil => cases h
  | cons newest older =>
    obtain rfl := Option.some.inj h
    obtain ⟨hcapacity, hrooms⟩ := capacity_foldl_merge older newest
    refine ⟨foldl_merge_perm older newest, ?_, ?_, fun c hc => ?_, fun n hfour hrecords hall => ?_⟩
    · refine List.length_pos_iff.2 fun hnone => ?_
      rw [(Bag.isEmpty_iff _).2 hnone] at hnonempty
      cases hnonempty
    · rintro c hc
      obtain rfl := Option.some.inj hc
      exact hcapacity
    · rcases List.mem_cons.1 hc with rfl | hc
      · exact Nat.le_trans (Nat.sub_le _ _) hcapacity
      · exact hrooms c hc
    · exact capacity_foldl_merge_le (hall newest (List.mem_cons_self ..))
        (fun c hc => hall c (List.mem_cons_of_mem newest hc)) hrecords hfour

/-- The list of a new context has the capacity that the configuration gives, or is made of all that
was abandoned, whatever the configuration says. -/
inductive Context.Furnished (c : Context) (d : Domain) : Prop where
  | fresh : d.abandoned.bags = [] → c.bag.records = [] →
      c.bag.capacity = c.config.initCache.toNat → Furnished c d
  | inherited : Abandoned.merged d.abandoned.bags = some c.bag →
      c.bag.Inherits d.abandoned.bags → Furnished c d

theorem Context.create_furnished {d d' : Domain} {c : Context}
    (hbags : ∀ b ∈ d.abandoned.bags, b.isEmpty = false) (h : create d = .ok (c, d')) :
    c.config = d.config ∧ c.Furnished d := by
  unfold create at h
  split at h
  · rename_i hadopt
    obtain ⟨rfl, rfl⟩ := Prod.mk.inj (Except.ok.inj h)
    have hmerged := (Prod.mk.inj hadopt).1
    exact ⟨rfl, .inherited hmerged (Abandoned.inherits_merged hbags hmerged)⟩
  · rename_i hadopt
    have hmerged : Abandoned.merged d.abandoned.bags = none := (Prod.mk.inj hadopt).1
    obtain ⟨bag, hbag, heq⟩ := ok_of_bind_ok h
    obtain ⟨rfl, rfl⟩ := Prod.mk.inj (Except.ok.inj heq)
    unfold Bag.withCapacity at hbag
    split at hbag
    · obtain rfl := Except.ok.inj hbag
      exact ⟨rfl, .fresh (Abandoned.bags_of_merged hmerged) rfl rfl⟩
    · cases hbag

namespace Abandoned

inductive Suffices (l : Abandoned) (n : Nat) : Prop where
  | newest (b : Bag) : b ∈ l.bags.head? → n ≤ b.capacity → Suffices l n
  | room (b : Bag) : b ∈ l.bags → n ≤ b.room → Suffices l n

/-- A list made of these bags has not room for `n` records, since a list that has to grow has room
for four records or for twice as many as are in it. -/
structure FallsShort (l : Abandoned) (n : Nat) : Prop where
  bags : l.bags ≠ []
  four : 4 < n
  records : 2 * l.records.length < n
  small : ∀ b ∈ l.bags, b.capacity < n

end Abandoned

namespace Context.Furnished
variable {c : Context} {d : Domain}

theorem of_nothing (h : c.Furnished d) (hnone : d.abandoned.bags = []) :
    c.bag.capacity = c.config.initCache.toNat := by
  cases h with
  | fresh _ _ hcapacity => exact hcapacity
  | inherited hmerged _ =>
    rw [hnone] at hmerged
    cases hmerged

theorem kept (h : c.Furnished d) {n : Nat} (hn : d.abandoned.Suffices n) : n ≤ c.bag.capacity := by
  cases h with
  | fresh hnone =>
    cases hn with
    | newest b hb =>
      rw [hnone] at hb
      cases hb
    | room b hb =>
      rw [hnone] at hb
      cases hb
  | inherited _ hinherits =>
    cases hn with
    | newest b hb hfits => exact Nat.le_trans hfits (hinherits.newest b hb)
    | room b hb hfits => exact Nat.le_trans hfits (hinherits.rooms b hb)

theorem broken (h : c.Furnished d) {n : Nat} (hn : d.abandoned.FallsShort n) :
    c.bag.capacity < n := by
  cases h with
  | fresh hnone => exact absurd hnone hn.bags
  | inherited _ hinherits =>
    have hlength : c.bag.records.length = d.abandoned.records.length := hinherits.records.length_eq
    have hfour := hn.four
    have hrecords := hn.records
    have hbound := hinherits.bounded (n - 1) (by omega) (by omega)
      fun b hb => Nat.le_sub_one_of_lt (hn.small b hb)
    omega

end Context.Furnished

namespace Run

/-- A context reads the configuration when it is created, and keeps it. As long as no thread has
ended since nothing was abandoned, its list has the capacity that the configuration promises. But
where it inherits a list, the capacity is what the abandoned lists give, whatever was promised. -/
theorem Reachable.entered_capacity {m : Run V} (h : m.Reachable) {t : ThreadId} {s : Site}
    (habsent : (m.world.thread t).presence = .absent) (henter : (m.world.site t).enter = .ok s) :
    ∃ c, s.presence = .live c ∧ c.config = m.world.domain.config ∧ c.Furnished m.world.domain ∧
      (∀ k : Run V, k.Reachable → k.world.domain.abandoned.bags = [] → Reaches IsOrdinary k m →
        c.bag.capacity = c.config.initCache.toNat) ∧
      (∀ n, m.world.domain.abandoned.Suffices n → n ≤ c.bag.capacity) ∧
      ∀ n, m.world.domain.abandoned.FallsShort n → c.bag.capacity < n := by
  unfold Site.enter at henter
  rw [show (m.world.site t).presence = .absent from habsent] at henter
  obtain ⟨⟨c, d⟩, hcreate, heq⟩ := ok_of_bind_ok henter
  obtain rfl := Except.ok.inj heq
  obtain ⟨hconfig, hfurnished⟩ := Context.create_furnished h.abandoned_nonempty hcreate
  refine ⟨c, rfl, hconfig, hfurnished, fun k hk hnone hordinary => hfurnished.of_nothing ?_,
    fun _ => hfurnished.kept, fun _ => hfurnished.broken⟩
  rcases hordinary.abandoned hk with hsame | hempty
  · exact hsame ▸ hnone
  · exact hempty

/-- A thread has retired a record after its context was destroyed. -/
def inheriting : Run Nat := idle.following
  (tell 0 3 [.create "late" []] ++ tell 1 3 [.countRetired] ++
  [(⟨1, .atExit [⟨none, .retire "late" .boxed⟩]⟩, 3), (⟨1, .exit false⟩, 12)])

theorem inheriting_reachable : inheriting.Reachable :=
  .following (.refl trivial) _ (by decide +kernel)

theorem inheriting_entered :
    inheriting.Reachable ∧ (inheriting.world.thread 2).presence = .absent ∧
      ∃ s c, (inheriting.world.site 2).enter = .ok s ∧ s.presence = .live c ∧
        c.config.initCache = 128 ∧ inheriting.world.domain.abandoned.FallsShort 128 ∧
        inheriting.world.domain.abandoned.Suffices 1 ∧ 1 ≤ c.bag.capacity ∧
        c.bag.capacity < c.config.initCache.toNat := by
  have habsent : (inheriting.world.thread 2).presence = .absent := rfl
  obtain ⟨s, henter⟩ : ∃ s, (inheriting.world.site 2).enter = .ok s := ⟨_, rfl⟩
  obtain ⟨c, hc, hconfig, -, -, hkept, hbroken⟩ :=
    inheriting_reachable.entered_capacity habsent henter
  have hcache : c.config.initCache = 128 := by
    rw [hconfig]
    decide +kernel
  have hnonempty : inheriting.world.domain.abandoned.bags ≠ [] := fun hnone =>
    absurd (congrArg List.length hnone) (by decide +kernel)
  have hshort : inheriting.world.domain.abandoned.FallsShort 128 :=
    ⟨hnonempty, by decide, by decide +kernel, by decide +kernel⟩
  have hone : inheriting.world.domain.abandoned.Suffices 1 := .newest _ rfl (by decide +kernel)
  refine ⟨inheriting_reachable, habsent, s, c, henter, hc, hcache, hshort, hone,
    hkept 1 hone, hbroken _ ?_⟩
  rw [hcache]
  exact hshort

/-- The context of the next thread begins with a list for one record, where the configuration gives
room for 128. -/
theorem inheriting_cramped :
    inheriting.Reachable ∧ (inheriting.world.thread 2).presence = .absent ∧
      inheriting.world.domain.config.initCache = 128 ∧
      ∃ s c, (inheriting.world.site 2).enter = .ok s ∧ s.presence = .live c ∧
        c.config = inheriting.world.domain.config ∧ c.bag.capacity = 1 :=
  ⟨inheriting_reachable, rfl, by decide +kernel, _, _, rfl, rfl, rfl, by decide +kernel⟩

end Run
end Reclaim
