import Reclaim.Snapshot

/-!
Retired records, and how those that may be reclaimed are separated from the others.
`separate_perm`, `separate_kept` and `separate_drained` say that every record goes to one side and
that a test on the record decides which. `sweep` does the same without moving any record, which
`sweep_eq` says.
-/

set_option autoImplicit false

namespace Reclaim

inductive Deleter where
  | boxed
  /-- A function of the caller's is told, and then the content is dropped. -/
  | custom
  deriving DecidableEq, Repr

structure Retired where
  address : Address
  deleter : Deleter
  deriving DecidableEq, Repr

namespace Retired

def describe (r : Retired) : String :=
  Text.record "Retired" [("address", Address.describe (some r.address))]

end Retired

/-- What is left of a list whose head was removed and replaced by the last element. -/
def fillGap {α : Type} (rest : List α) : List α :=
  match rest.getLast? with
  | none => []
  | some last => last :: rest.dropLast

theorem fillGap_perm {α : Type} (rest : List α) : (fillGap rest).Perm rest := by
  unfold fillGap
  cases h : rest.getLast? with
  | none => simp [List.getLast?_eq_none_iff.1 h]
  | some last =>
    have hrest : rest.dropLast ++ [last] = rest := by
      obtain ⟨front, rfl⟩ := List.getLast?_eq_some_iff.1 h
      simp
    calc
      (last :: rest.dropLast).Perm (rest.dropLast ++ [last]) :=
        (List.perm_append_singleton _ _).symm
      _ = rest := hrest

/-- The records that stay and, in the order of their removal, those that go. The gap a record
leaves is filled by the last record, which is examined next. -/
def separate (stays : Retired → Bool) : List Retired → List Retired × List Retired
  | [] => ([], [])
  | r :: rest =>
    if stays r then
      let (kept, drained) := separate stays rest
      (r :: kept, drained)
    else
      let (kept, drained) := separate stays (fillGap rest)
      (kept, r :: drained)
termination_by l => l.length
decreasing_by
  · simp
  · simp [(fillGap_perm rest).length_eq]

theorem separate_perm (stays : Retired → Bool) (l : List Retired) :
    ((separate stays l).1 ++ (separate stays l).2).Perm l := by
  fun_induction separate stays l with
  | case1 => simp
  | case2 r rest _ kept drained h ih =>
    rw [h] at ih
    exact ih.cons r
  | case3 r rest _ kept drained h ih =>
    rw [h] at ih
    exact List.perm_middle.trans ((ih.trans (fillGap_perm rest)).cons r)

theorem separate_kept (stays : Retired → Bool) (l : List Retired) :
    ∀ r ∈ (separate stays l).1, stays r = true := by
  fun_induction separate stays l with
  | case1 => simp
  | case2 r rest hr kept drained h ih =>
    rw [h] at ih
    simpa [hr] using ih
  | case3 r rest _ kept drained h ih =>
    rw [h] at ih
    exact ih

theorem separate_drained (stays : Retired → Bool) (l : List Retired) :
    ∀ r ∈ (separate stays l).2, stays r = false := by
  fun_induction separate stays l with
  | case1 => simp
  | case2 r rest _ kept drained h ih =>
    rw [h] at ih
    exact ih
  | case3 r rest hr kept drained h ih =>
    rw [h] at ih
    simpa [hr] using ih

/-- Where everything stays, it stays in its order. -/
theorem separate_of_all {stays : Retired → Bool} {l : List Retired}
    (h : ∀ r ∈ l, stays r = true) : separate stays l = (l, []) := by
  induction l with
  | nil => simp [separate]
  | cons r rest ih =>
    have hrest := ih fun x hx => h x (List.mem_cons_of_mem r hx)
    simp [separate, h r List.mem_cons_self, hrest]

theorem separate_kept_length (stays : Retired → Bool) (l : List Retired) :
    (separate stays l).1.length ≤ l.length := by
  have := (separate_perm stays l).length_eq
  simp only [List.length_append] at this
  omega

/-- Examines `r` and then the `k` elements from position `lo` on, in the way of `separate`: after a
record that goes, the last of these elements is the next one. -/
def sweepFrom (stays : Retired → Bool) (xs : Array Retired) (kept drained : Array Retired)
    (r : Retired) (lo : Nat) : (k : Nat) → lo + k ≤ xs.size → Array Retired × Array Retired
  | 0, _ => if stays r then (kept.push r, drained) else (kept, drained.push r)
  | k + 1, h =>
    if stays r then
      sweepFrom stays xs (kept.push r) drained xs[lo] (lo + 1) k (by omega)
    else
      sweepFrom stays xs kept (drained.push r) xs[lo + k] lo k (by omega)

def sweep (stays : Retired → Bool) (xs : Array Retired) : Array Retired × Array Retired :=
  if h : 0 < xs.size then sweepFrom stays xs #[] #[] xs[0] 1 (xs.size - 1) (by omega)
  else (#[], #[])

theorem take_drop_succ {xs : Array Retired} {lo k : Nat} (h : lo + (k + 1) ≤ xs.size) :
    (xs.toList.drop lo).take (k + 1) = xs[lo] :: (xs.toList.drop (lo + 1)).take k := by
  rw [List.drop_eq_getElem_cons (by simp; omega), List.take_succ_cons, Array.getElem_toList]

theorem fillGap_take_drop {xs : Array Retired} {lo k : Nat} (h : lo + (k + 1) ≤ xs.size) :
    fillGap ((xs.toList.drop lo).take (k + 1)) = xs[lo + k] :: (xs.toList.drop lo).take k := by
  have hlast : (xs.toList.drop lo).take (k + 1) = (xs.toList.drop lo).take k ++ [xs[lo + k]] := by
    rw [List.take_succ_eq_append_getElem (by simp; omega)]
    simp
  simp [hlast, fillGap]

theorem sweepFrom_eq (stays : Retired → Bool) (xs kept drained : Array Retired) (r : Retired)
    (lo k : Nat) (h : lo + k ≤ xs.size) :
    let split := separate stays (r :: (xs.toList.drop lo).take k)
    sweepFrom stays xs kept drained r lo k h =
      (kept ++ split.1.toArray, drained ++ split.2.toArray) := by
  induction k generalizing kept drained r lo with
  | zero => cases hr : stays r <;> simp [sweepFrom, separate, fillGap, hr]
  | succ k ih =>
    cases hr : stays r
    · simp [sweepFrom, separate, hr, ih, fillGap_take_drop h, -List.take_succ_cons]
    · simp [sweepFrom, separate, hr, ih, take_drop_succ h]

theorem sweep_eq (stays : Retired → Bool) (xs : Array Retired) :
    sweep stays xs =
      ((separate stays xs.toList).1.toArray, (separate stays xs.toList).2.toArray) := by
  unfold sweep
  split
  · rename_i h
    have hxs : xs.toList = xs[0] :: (xs.toList.drop 1).take (xs.size - 1) := by
      have := @take_drop_succ xs 0 (xs.size - 1) (by omega)
      rw [List.drop_zero, List.take_of_length_le (by simp; omega)] at this
      exact this
    rw [sweepFrom_eq, ← hxs]
    simp
  · rename_i h
    have hxs : xs = #[] := Array.eq_empty_of_size_eq_zero (by omega)
    simp [hxs, separate]

end Reclaim
