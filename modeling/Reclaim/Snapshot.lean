import Reclaim.Address

set_option autoImplicit false

namespace Reclaim

structure Snapshot where
  addresses : Array Address
  ascending : addresses.toList.Pairwise (· ≤ ·)

namespace Snapshot

def empty : Snapshot := ⟨#[], by simp⟩

def ofList (l : List Address) : Snapshot where
  addresses := (l.mergeSort fun a b => decide (a ≤ b)).toArray
  ascending := by
    have trans : ∀ a b c : Address, decide (a ≤ b) = true → decide (b ≤ c) = true →
        decide (a ≤ c) = true := fun a b c => by simpa using Nat.le_trans
    have total : ∀ a b : Address, (decide (a ≤ b) || decide (b ≤ a)) = true :=
      fun a b => by simpa using Nat.le_total a b
    simpa using List.pairwise_mergeSort trans total l

/-- Looks for `a` at the positions from `lo` up to but not including `hi`. -/
def search (xs : Array Address) (a : Address) (lo hi : Nat) (h : hi ≤ xs.size) : Bool :=
  if hlt : lo < hi then
    let mid := lo + (hi - lo) / 2
    have hmid : mid < xs.size := by omega
    if xs[mid] = a then true
    else if xs[mid] < a then search xs a (mid + 1) hi h
    else search xs a lo mid (by omega)
  else false
termination_by hi - lo

def covers (s : Snapshot) (a : Address) : Bool :=
  search s.addresses a 0 s.addresses.size (Nat.le_refl _)

theorem mem_of_search {xs : Array Address} {a : Address} {lo hi : Nat} {h : hi ≤ xs.size}
    (hs : search xs a lo hi h = true) : a ∈ xs := by
  fun_induction search xs a lo hi h with
  | case1 lo hi h hlt mid hmid heq => exact heq ▸ Array.getElem_mem hmid
  | case2 lo hi h hlt mid hmid hne hless ih => exact ih hs
  | case3 lo hi h hlt mid hmid hne hless ih => exact ih hs
  | case4 => simp at hs

theorem getElem_le {xs : Array Address} (hp : xs.toList.Pairwise (· ≤ ·)) {i j : Nat}
    (hij : i ≤ j) (hj : j < xs.size) : xs[i] ≤ xs[j] := by
  rcases Nat.lt_or_eq_of_le hij with h | rfl
  · have := List.pairwise_iff_getElem.1 hp i j (by simpa using Nat.lt_trans h hj)
      (by simpa using hj) h
    rwa [Array.getElem_toList, Array.getElem_toList] at this
  · exact Nat.le_refl _

theorem search_of_getElem {xs : Array Address} (hp : xs.toList.Pairwise (· ≤ ·)) {a : Address}
    {lo hi : Nat} {h : hi ≤ xs.size} {k : Nat} (hlo : lo ≤ k) (hk : k < hi)
    (ha : xs[k]? = some a) : search xs a lo hi h = true := by
  obtain ⟨hks, ha'⟩ := Array.getElem?_eq_some_iff.1 ha
  fun_induction search xs a lo hi h with
  | case1 => rfl
  | case2 lo hi h hlt mid hmid hne hless ih =>
    refine ih (Nat.lt_of_not_le fun hkm => ?_) hk
    exact Nat.lt_irrefl a (Nat.lt_of_le_of_lt (ha' ▸ getElem_le hp hkm hmid) hless)
  | case3 lo hi h hlt mid hmid hne hless ih =>
    refine ih hlo (Nat.lt_of_not_le fun hmk => ?_)
    have hle := ha' ▸ getElem_le hp hmk hks
    exact hne (Nat.le_antisymm hle (Nat.le_of_not_lt hless))
  | case4 => omega

theorem covers_iff (s : Snapshot) (a : Address) : s.covers a = true ↔ a ∈ s.addresses := by
  constructor
  · exact mem_of_search
  · intro h
    obtain ⟨k, hk, ha⟩ := Array.mem_iff_getElem.1 h
    exact search_of_getElem s.ascending (Nat.zero_le k) hk (Array.getElem?_eq_some_iff.2 ⟨hk, ha⟩)

theorem covers_ofList (l : List Address) (a : Address) :
    (ofList l).covers a = true ↔ a ∈ l := by
  rw [covers_iff]
  simp [ofList]

end Snapshot
end Reclaim
