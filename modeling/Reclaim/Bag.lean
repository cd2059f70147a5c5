import Reclaim.Panic
import Reclaim.Retired

/-!
Bags of retired records: the records a thread has retired and not yet reclaimed, in a list with a
capacity. The capacity only grows, and by the rule of `grown`; it decides which of two merged
lists is kept. `merge_perm`, `drainUnprotected_records` and `drainUnprotected_snd` say what becomes
of the records.
-/

set_option autoImplicit false

namespace Reclaim

/-- The capacity of a list with room for `needed` records, if it had room for `capacity`. -/
def grown (capacity needed : Nat) : Nat :=
  if needed ≤ capacity then capacity else max (max (2 * capacity) needed) 4

theorem le_grown (capacity needed : Nat) : needed ≤ grown capacity needed := by
  unfold grown; split <;> omega

theorem capacity_le_grown (capacity needed : Nat) : capacity ≤ grown capacity needed := by
  unfold grown; split <;> omega

structure Bag where
  content : Array Retired
  capacity : Nat
  fits : content.size ≤ capacity

namespace Bag

/-- A record takes sixteen bytes, and a list may take less than half of the addresses. -/
def maxCapacity : Nat := (UInt64.size / 2 - 1) / 16

def withCapacity (capacity : Nat) : Except Panic Bag :=
  if capacity ≤ maxCapacity then .ok ⟨#[], capacity, Nat.zero_le _⟩ else .error .capacityOverflow

def empty : Bag := ⟨#[], 0, Nat.le_refl _⟩

def single (r : Retired) : Bag := ⟨#[r], 1, by simp⟩

def records (b : Bag) : List Retired := b.content.toList

def size (b : Bag) : Nat := b.content.size

def isEmpty (b : Bag) : Bool := b.content.isEmpty

def append (b : Bag) (xs : Array Retired) : Bag where
  content := b.content ++ xs
  capacity := grown b.capacity (b.content.size + xs.size)
  fits := by rw [Array.size_append]; exact le_grown _ _

def push (b : Bag) (r : Retired) : Bag where
  content := b.content.push r
  capacity := grown b.capacity (b.content.size + 1)
  fits := by rw [Array.size_push]; exact le_grown _ _

/-- The list of `other` is kept in place of the bag's own if its free room alone exceeds the
bag's capacity. -/
def merge (b other : Bag) : Bag :=
  if b.capacity < other.capacity - other.size then other.append b.content
  else b.append other.content

/-- Keeps the records whose address the snapshot covers; the others follow `reclaimable`. -/
def drainUnprotected (b : Bag) (s : Snapshot) (reclaimable : List Retired) :
    Bag × List Retired :=
  let split := sweep (fun r => s.covers r.address) b.content
  have fits : split.1.size ≤ b.capacity := by
    have := separate_kept_length (fun r => s.covers r.address) b.content.toList
    have := b.fits
    simp only [split, sweep_eq, List.size_toArray, Array.length_toList] at *
    omega
  (⟨split.1, b.capacity, fits⟩, reclaimable ++ split.2.toList)

def describe (b : Bag) : String :=
  Text.record "RetiredBag" [
    ("inner", Text.sequence (b.records.map Retired.describe)),
    ("next", Address.describe none)]

theorem records_append (b : Bag) (xs : Array Retired) :
    (b.append xs).records = b.records ++ xs.toList := by
  simp [records, append]

theorem records_push (b : Bag) (r : Retired) : (b.push r).records = b.records ++ [r] := by
  simp [records, push]

theorem merge_perm (b other : Bag) :
    (b.merge other).records.Perm (b.records ++ other.records) := by
  unfold merge
  split
  · rw [records_append]
    exact List.perm_append_comm
  · rw [records_append]
    exact List.Perm.refl _

theorem drainUnprotected_records (b : Bag) (s : Snapshot) (reclaimable : List Retired) :
    (b.drainUnprotected s reclaimable).1.records =
      (separate (fun r => s.covers r.address) b.records).1 := by
  simp [drainUnprotected, records, sweep_eq]

theorem drainUnprotected_snd (b : Bag) (s : Snapshot) (reclaimable : List Retired) :
    (b.drainUnprotected s reclaimable).2 =
      reclaimable ++ (separate (fun r => s.covers r.address) b.records).2 := by
  simp [drainUnprotected, records, sweep_eq]

end Bag
end Reclaim
