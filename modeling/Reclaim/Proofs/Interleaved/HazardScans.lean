import Reclaim.Proofs.Interleaved.GuardRecords
import Reclaim.Proofs.Interleaved.PointerPlaces

/-!
What a hazard pointer has acquired from a cell is not reclaimed for as long as the hazard pointer
stays there. A scan that may come to a bag with such a pointer in it has either seen the pointer or
has yet to read the record that announces it: the cell held the pointer when it was announced, so
it was retired, and the scan begun, afterwards.
-/

set_option autoImplicit false

namespace Reclaim.Interleaved

def ProtectionMove.endsHold (h : HazardId) : ProtectionMove → Bool
  | .guard k (.load _) | .guard k (.announce _) | .guard k .reset | .guard k .withdraw => k == h
  | _ => false

namespace ProtectionState
variable {s : ProtectionState} {h : HazardId} {i : RecordId} {a : Address} {t : ThreadId}

theorem guard_others (s : ProtectionState) (h : HazardId) (m : GuardMove) :
    (s.guard h m).cells = s.cells ∧ (s.guard h m).reclaimers = s.reclaimers ∧
      (s.guard h m).abandoned = s.abandoned := by
  unfold guard
  split
  all_goals first | exact ⟨rfl, rfl, rfl⟩ | (split <;> exact ⟨rfl, rfl, rfl⟩)

theorem inUse_guard (s : ProtectionState) (h : HazardId) (m : GuardMove) :
    (s.guard h m).inUse = s.inUse := by
  obtain ⟨hcells, hreclaimers, habandoned⟩ := s.guard_others h m
  rw [inUse, hcells, hreclaimers, habandoned]
  rfl

theorem reclaimer_guard (s : ProtectionState) (h : HazardId) (m : GuardMove) (t : ThreadId) :
    (s.guard h m).reclaimer t = s.reclaimer t := by
  rw [reclaimer, (s.guard_others h m).2.1]
  rfl

/-- A hazard pointer comes to hold only what a cell holds at that time. -/
theorem hazards_guard (s : ProtectionState) (h : HazardId) (m : GuardMove) :
    (s.guard h m).hazards = s.hazards ∨ (s.guard h m).hazards = s.hazards.erase h ∨
      ∃ g, (s.guard h m).hazards = s.hazards.insert h g ∧
        ∀ i a, g = .holding i (some a) → ∃ c, s.cellContent c = some a := by
  unfold guard
  split
  case h_7 i c a _ =>
    split
    · rename_i hcell
      refine .inr (.inr ⟨_, rfl, ?_⟩)
      rintro i b ⟨⟩
      exact ⟨c, hcell⟩
    · exact .inr (.inr ⟨_, rfl, by rintro _ _ ⟨⟩⟩)
  all_goals first
    | exact .inl rfl
    | exact .inr (.inr ⟨_, rfl, by rintro _ _ ⟨⟩⟩)
    | split
  all_goals first
    | exact .inl rfl
    | exact .inr (.inl rfl)
    | exact .inr (.inr ⟨_, rfl, by rintro _ _ ⟨⟩⟩)

theorem held_guard (hget : s.hazards.get? h = some (.holding i (some a))) {k : HazardId}
    {m : GuardMove} (hm : (ProtectionMove.guard k m).endsHold h = false) :
    (s.guard k m).hazards.get? h = some (.holding i (some a)) := by
  by_cases hk : k = h
  · subst hk
    unfold guard
    rw [hget]
    cases m with
    | load | announce | reset | withdraw => simp [ProtectionMove.endsHold] at hm
    | create | capture | prepend | publish | confirm | deactivate => exact hget
  · rcases s.hazards_guard k m with he | he | ⟨g, he, -⟩
    · rw [he, hget]
    · rw [he, Table.get?_erase_of_ne (Ne.symm hk), hget]
    · rw [he, Table.get?_insert_of_ne (Ne.symm hk), hget]

theorem history_guard (s : ProtectionState) (h : HazardId) (m : GuardMove) :
    ∃ l, (s.guard h m).history = l ++ s.history ∧
      l.filterMap ProtectionEvent.reclaimed? = [] := by
  unfold guard
  split
  all_goals first | exact ⟨[], rfl, rfl⟩ | split
  all_goals first | exact ⟨[], rfl, rfl⟩ | exact ⟨[_], rfl, rfl⟩

theorem reclaim_others (s : ProtectionState) (t : ThreadId) (m : ReclaimMove) :
    (s.reclaim t m).registry = s.registry ∧ (s.reclaim t m).hazards = s.hazards := by
  unfold reclaim
  dsimp only
  split
  all_goals first | exact ⟨rfl, rfl⟩ | (split <;> exact ⟨rfl, rfl⟩)

def Resumes (s s' : ProtectionState) : Prop :=
  ∀ (t : ThreadId) (n : Nat) (seen : List Address), (s'.reclaimer t).scan = some (n, seen) →
    (s'.reclaimer t).bag = (s.reclaimer t).bag ∧
      ((s.reclaimer t).scan = some (n, seen) ∨ n = s.registry.records.size ∨
        ∃ before, (s.reclaimer t).scan = some (n + 1, before) ∧
          seen = before ++ (s.registry.target n).toList)

theorem Resumes.refl (s : ProtectionState) : s.Resumes s := fun _ _ _ hscan => ⟨rfl, .inl hscan⟩

theorem Resumes.set {s₁ : ProtectionState} {r : Reclaimer} (hsame : s₁.reclaimers = s.reclaimers)
    (hr : ∀ n seen, r.scan = some (n, seen) → r.bag = (s.reclaimer t).bag ∧
      (n = s.registry.records.size ∨ ∃ before, (s.reclaimer t).scan = some (n + 1, before) ∧
        seen = before ++ (s.registry.target n).toList)) :
    s.Resumes (s₁.setReclaimer t r) := by
  intro u n seen hscan
  rw [reclaimer_setReclaimer] at hscan ⊢
  split at hscan
  · rename_i hu
    subst hu
    obtain ⟨hbag, hbefore⟩ := hr n seen hscan
    exact ⟨by rw [if_pos rfl, hbag], .inr hbefore⟩
  · rename_i hu
    rw [reclaimer, hsame] at hscan
    rw [if_neg hu, reclaimer, hsame]
    exact ⟨rfl, .inl hscan⟩

/-- While a thread scans it keeps its bag. -/
theorem reclaim_resumes (s : ProtectionState) (t : ThreadId) (m : ReclaimMove) :
    s.Resumes (s.reclaim t m) := by
  unfold reclaim
  dsimp only
  split
  · rename_i hscan
    split
    · exact .refl s
    · exact .set rfl (by simp [hscan])
  · rename_i a u hscan
    split
    · have hgiven : s.Resumes (s.setReclaimer t
          { s.reclaimer t with unlinked := (s.reclaimer t).unlinked.erase a }) :=
        .set rfl (by simp [hscan])
      intro v n seen hv
      rw [reclaimer_setReclaimer] at hv ⊢
      split at hv
      · rename_i hvu
        subst hvu
        rw [if_pos rfl]
        exact hgiven v n seen hv
      · rename_i hvu
        rw [if_neg hvu]
        exact hgiven v n seen hv
    · exact .refl s
  · rename_i hscan
    split
    · exact .set rfl (by simp [hscan])
    · exact .refl s
  · refine .set rfl ?_
    rintro n seen ⟨⟩
    exact ⟨rfl, .inl rfl⟩
  · rename_i before hscan
    refine .set rfl ?_
    rintro n seen ⟨⟩
    exact ⟨rfl, .inr ⟨before, hscan, rfl⟩⟩
  · exact .set rfl (by rintro _ _ ⟨⟩)
  · rename_i hscan
    exact .set rfl (by simp [hscan])
  · rename_i hscan
    split
    · exact .set rfl (by simp [hscan])
    · exact .refl s
  · exact .refl s

/-- Every hazard pointer is safe from the scans of the others: what it holds is in use, and no scan
passes it over. -/
structure Sheltered (s : ProtectionState) : Prop where
  used : ∀ h i a, s.hazards.get? h = some (.holding i (some a)) → a ∈ s.inUse
  seen : ∀ h i a t n seen, s.hazards.get? h = some (.holding i (some a)) →
    (s.reclaimer t).scan = some (n, seen) →
    a ∈ (s.reclaimer t).bag.records.map (·.address) → i < n ∨ a ∈ seen

namespace Sheltered

theorem unreclaimed {s' : ProtectionState} {new : Option Address} {l : List ProtectionEvent}
    (hs : s.Sheltered) (hget : s.hazards.get? h = some (.holding i (some a)))
    (hacc : Accounted s t new l s') : a ∉ l.filterMap ProtectionEvent.reclaimed? := by
  intro hmem
  obtain ⟨hbag, seen, hscan, hunseen⟩ := hacc.unseen a hmem
  rcases hs.seen h i a t 0 seen hget hscan hbag with hlt | hseen
  · exact absurd hlt (Nat.not_lt_zero i)
  · exact hunseen hseen

theorem guard (hs : s.Sheltered) (huse : s.inUse.Nodup) (h : HazardId) (m : GuardMove) :
    (s.guard h m).Sheltered := by
  have hnew {h' : HazardId} {i : RecordId} {a : Address}
      (hget : (s.guard h m).hazards.get? h' = some (.holding i (some a))) :
      s.hazards.get? h' = some (.holding i (some a)) ∨ ∃ c, s.cellContent c = some a := by
    rcases s.hazards_guard h m with he | he | ⟨g, he, hg⟩
    · exact .inl (he ▸ hget)
    · rw [he, Table.get?_erase] at hget
      split at hget
      · cases hget
      · exact .inl hget
    · rw [he, Table.get?_insert] at hget
      split at hget
      · exact .inr (hg i a (Option.some.inj hget))
      · exact .inl hget
  refine ⟨fun h' i a hget => ?_, fun h' i a t n seen hget hscan hbag => ?_⟩
  · rw [inUse_guard]
    rcases hnew hget with hget | ⟨c, hc⟩
    · exact hs.used h' i a hget
    · exact mem_inUse_of_cellContent hc
  · rw [reclaimer_guard] at hscan hbag
    rcases hnew hget with hget | ⟨c, hc⟩
    · exact hs.seen h' i a t n seen hget hscan hbag
    · exact absurd (List.mem_append_right _ hbag) (not_mem_addresses_of_cellContent huse hc t)

theorem reclaim (hs : s.Sheltered) (hg : Guarded s.registry s.hazards) (t : ThreadId)
    (m : ReclaimMove) : (s.reclaim t m).Sheltered := by
  obtain ⟨new, l, hacc⟩ := s.reclaim_accounted t m
  obtain ⟨-, hhazards⟩ := s.reclaim_others t m
  refine ⟨fun h i a hget => ?_, fun h i a u n seen hget hscan hbag => ?_⟩
  · rw [hhazards] at hget
    exact hacc.mem_inUse (hs.used h i a hget) (hs.unreclaimed hget hacc)
  · rw [hhazards] at hget
    obtain ⟨hsame, hbefore⟩ := s.reclaim_resumes t m u n seen hscan
    rw [hsame] at hbag
    rcases hbefore with hu | rfl | ⟨before, hu, rfl⟩
    · exact hs.seen h i a u n seen hget hu hbag
    · -- The record was there when the scan began.
      have hactive := hg.active h _ i hget rfl
      obtain ⟨r, hr, -⟩ := Option.any_eq_true .. |>.1 hactive
      exact .inl (Array.getElem?_eq_some_iff.1 hr).1
    · rw [List.mem_append, Option.mem_toList]
      rcases hs.seen h i a u (n + 1) before hget hu hbag with hlt | hseen
      · rcases Nat.lt_succ_iff_lt_or_eq.1 hlt with hlt | rfl
        · exact .inl hlt
        · exact .inr (.inr (hg.announced h _ i _ hget rfl rfl))
      · exact .inr (.inl hseen)

end Sheltered

structure Inv (s : ProtectionState) : Prop where
  guarded : Guarded s.registry s.hazards
  inUse : s.inUse.Nodup
  sheltered : s.Sheltered

theorem Inv.initial : Inv {} where
  guarded := ⟨by rintro _ _ _ _ _ ⟨⟩, by rintro _ _ _ ⟨⟩, by rintro _ _ _ _ ⟨⟩⟩
  inUse := by simp [ProtectionState.inUse, Table.values_empty, Abandoned.records]
  sheltered := ⟨by rintro _ _ _ ⟨⟩, by rintro _ _ _ _ _ _ ⟨⟩⟩

theorem Inv.move (hs : s.Inv) (m : ProtectionMove) : (s.move m).Inv := by
  cases m with
  | guard h m =>
    refine ⟨hs.guarded.guard h m, ?_, hs.sheltered.guard hs.inUse h m⟩
    exact (inUse_guard s h m).symm ▸ hs.inUse
  | reclaim t m =>
    obtain ⟨hregistry, hhazards⟩ := s.reclaim_others t m
    obtain ⟨new, l, hacc⟩ := s.reclaim_accounted t m
    refine ⟨?_, hacc.nodup hs.inUse, hs.sheltered.reclaim hs.guarded t m⟩
    change Guarded (s.reclaim t m).registry (s.reclaim t m).hazards
    rw [hregistry, hhazards]
    exact hs.guarded

theorem Reachable.run (hs : s.Reachable) (ms : List ProtectionMove) :
    (ms.foldl ProtectionState.move s).Reachable := by
  induction ms generalizing s with
  | nil => exact hs
  | cons m ms ih => exact ih (hs.move m)

theorem Reachable.inv (hs : s.Reachable) : s.Inv := by
  induction hs with
  | initial => exact .initial
  | move m _ ih => exact ih.move m

/-- A move that leaves a hazard pointer where it is does not reclaim what the hazard pointer
holds. -/
theorem Inv.held (hs : s.Inv) (hget : s.hazards.get? h = some (.holding i (some a)))
    {m : ProtectionMove} (hm : m.endsHold h = false) :
    (s.move m).hazards.get? h = some (.holding i (some a)) ∧
      ∃ l, (s.move m).history = l ++ s.history ∧
        a ∉ l.filterMap ProtectionEvent.reclaimed? := by
  cases m with
  | guard k m =>
    obtain ⟨l, hl, hnone⟩ := s.history_guard k m
    exact ⟨held_guard hget hm, l, hl, by simp [hnone]⟩
  | reclaim t m =>
    obtain ⟨new, l, hacc⟩ := s.reclaim_accounted t m
    obtain ⟨-, hhazards⟩ := s.reclaim_others t m
    refine ⟨?_, l, hacc.history, hs.sheltered.unreclaimed hget hacc⟩
    exact (congrArg (·.get? h) hhazards).trans hget

theorem Inv.held_run (hs : s.Inv) (hget : s.hazards.get? h = some (.holding i (some a)))
    {ms : List ProtectionMove} (hms : ∀ m ∈ ms, m.endsHold h = false) :
    a ∈ (ms.foldl ProtectionState.move s).inUse ∧
      ∃ l, (ms.foldl ProtectionState.move s).history = l ++ s.history ∧
        a ∉ l.filterMap ProtectionEvent.reclaimed? := by
  induction ms generalizing s with
  | nil => exact ⟨hs.sheltered.used h i a hget, [], rfl, List.not_mem_nil⟩
  | cons m ms ih =>
    obtain ⟨hkept, l, hl, hfirst⟩ := hs.held hget (hms m (List.mem_cons_self ..))
    obtain ⟨huse, l', hl', hrest⟩ := ih (hs.move m) hkept fun m' hm' =>
      hms m' (List.mem_cons_of_mem _ hm')
    refine ⟨huse, l' ++ l, ?_, ?_⟩
    · rw [List.foldl_cons, hl', hl, List.append_assoc]
    · rw [List.filterMap_append, List.mem_append]
      exact not_or.2 ⟨hrest, hfirst⟩

theorem holding_of_held
    (hheld : (s.guard h .confirm).history = .held h (some a) :: s.history) :
    ∃ i, (s.guard h .confirm).hazards.get? h = some (.holding i (some a)) := by
  unfold guard at hheld ⊢
  split at hheld
  case h_7 i c b hget _ =>
    split at hheld
    · rename_i hcell
      obtain ⟨he, -⟩ := List.cons.inj hheld
      obtain rfl := (ProtectionEvent.held.inj he).2
      rw [if_pos hcell]
      exact ⟨i, Table.get?_insert_self ..⟩
    · exact absurd hheld.symm (List.cons_ne_self _ _)
  case h_2 hm => cases hm
  case h_14 hm => cases hm
  all_goals exact absurd hheld.symm (List.cons_ne_self _ _)

/-- Once an acquisition has found a pointer in the cell again, the pointer is in use and is not
reclaimed, whatever moves follow, until one that gives up what the hazard pointer has acquired. -/
theorem Reachable.not_reclaimed_while_held (hs : s.Reachable)
    (hheld : (s.guard h .confirm).history = .held h (some a) :: s.history)
    {ms : List ProtectionMove} (hms : ∀ m ∈ ms, m.endsHold h = false) :
    a ∈ (ms.foldl ProtectionState.move (s.guard h .confirm)).inUse ∧
      ∃ l, (ms.foldl ProtectionState.move (s.guard h .confirm)).history =
          l ++ .held h (some a) :: s.history ∧
        ∀ t, .reclaimed t a ∉ l := by
  obtain ⟨i, hget⟩ := holding_of_held hheld
  obtain ⟨huse, l, hl, hnot⟩ := (hs.inv.move (.guard h .confirm)).held_run hget hms
  refine ⟨huse, l, hl.trans (by rw [ProtectionState.move, hheld]), fun t hmem => hnot ?_⟩
  exact List.mem_filterMap.2 ⟨_, hmem, rfl⟩

def announcing : ProtectionState :=
  [.guard 0 .create, .guard 0 .prepend, .reclaim 1 (.swap 0 (some 7)), .guard 0 (.load 0),
    .guard 0 .publish].foldl ProtectionState.move {}

/-- A thread swaps out and retires two pointers and scans, while a record is prepended. -/
def scanning : List ProtectionMove :=
  [.reclaim 1 (.swap 0 (some 8)), .reclaim 1 (.swap 0 none), .reclaim 1 (.retire 7),
    .reclaim 1 (.retire 8), .guard 1 .create, .reclaim 1 .beginScan, .guard 1 .prepend,
    .reclaim 1 .readRecord, .reclaim 1 .endScan]

theorem announcing_reachable : announcing.Reachable := Reachable.initial.run _

theorem scanning_not_reclaimed :
    announcing.Reachable ∧
      (announcing.guard 0 .confirm).history = .held 0 (some 7) :: announcing.history ∧
      (∀ m ∈ scanning, m.endsHold 0 = false) ∧
      .reclaimed 1 8 ∈ (scanning.foldl ProtectionState.move (announcing.guard 0 .confirm)).history ∧
      7 ∈ (scanning.foldl ProtectionState.move (announcing.guard 0 .confirm)).inUse := by
  have hheld : (announcing.guard 0 .confirm).history = .held 0 (some 7) :: announcing.history := by
    decide +kernel
  have hms : ∀ m ∈ scanning, m.endsHold 0 = false := by decide
  exact ⟨announcing_reachable, hheld, hms, by decide +kernel,
    (announcing_reachable.not_reclaimed_while_held hheld hms).1⟩

end ProtectionState
end Reclaim.Interleaved
