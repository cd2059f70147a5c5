import Reclaim.Bag

set_option autoImplicit false

namespace Reclaim

structure Abandoned where
  bags : List Bag := []

namespace Abandoned

def isEmpty (l : Abandoned) : Bool := l.bags.isEmpty

def records (l : Abandoned) : List Retired := l.bags.flatMap (·.records)

def push (l : Abandoned) (b : Bag) : Abandoned := ⟨b :: l.bags⟩

/-- The most recent bag takes in the others one by one. -/
def merged : List Bag → Option Bag
  | [] => none
  | b :: rest => some (rest.foldl Bag.merge b)

def takeAndMerge (l : Abandoned) : Option Bag × Abandoned :=
  (merged l.bags, {})

theorem foldl_merge_perm (rest : List Bag) (b : Bag) :
    (rest.foldl Bag.merge b).records.Perm (b.records ++ rest.flatMap (·.records)) := by
  induction rest generalizing b with
  | nil => simp
  | cons c rest ih =>
    rw [List.foldl_cons, List.flatMap_cons, ← List.append_assoc]
    exact (ih (b.merge c)).trans ((Bag.merge_perm b c).append_right _)

theorem merged_perm (l : Abandoned) :
    ((merged l.bags).elim [] (·.records)).Perm l.records := by
  obtain ⟨bags⟩ := l
  cases bags with
  | nil => exact List.Perm.refl _
  | cons b rest => exact foldl_merge_perm rest b

end Abandoned
end Reclaim
