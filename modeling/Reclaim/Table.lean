import Std.Data.TreeMap.Lemmas

set_option autoImplicit false

namespace Reclaim

structure Table (κ α : Type) [Ord κ] where
  tree : Std.TreeMap κ α := {}

namespace Table
variable {κ α : Type} [Ord κ]

def get? (t : Table κ α) (k : κ) : Option α := t.tree[k]?

def contains (t : Table κ α) (k : κ) : Bool := (t.get? k).isSome

def insert (t : Table κ α) (k : κ) (a : α) : Table κ α := ⟨t.tree.insert k a⟩

def erase (t : Table κ α) (k : κ) : Table κ α := ⟨t.tree.erase k⟩

/-- A key that is not in the table stays out of it. -/
def modify (t : Table κ α) (k : κ) (f : α → α) : Table κ α := ⟨t.tree.modify k f⟩

def map {β : Type} (t : Table κ α) (f : α → β) : Table κ β := ⟨t.tree.map fun _ a => f a⟩

def size (t : Table κ α) : Nat := t.tree.size

def entries (t : Table κ α) : List (κ × α) := t.tree.toList

def keys (t : Table κ α) : List κ := t.tree.keys

def values (t : Table κ α) : List α := t.entries.map (·.2)

variable [Std.TransOrd κ]

theorem get?_empty (k : κ) : ({} : Table κ α).get? k = none :=
  Std.TreeMap.getElem?_emptyc

variable [Std.LawfulEqOrd κ] [DecidableEq κ]

theorem get?_insert (t : Table κ α) (j k : κ) (a : α) :
    (t.insert j a).get? k = if k = j then some a else t.get? k := by
  simp [get?, insert, Std.TreeMap.getElem?_insert, @eq_comm _ k j]

theorem get?_insert_self (t : Table κ α) (k : κ) (a : α) : (t.insert k a).get? k = some a := by
  rw [get?_insert, if_pos rfl]

theorem get?_insert_of_ne {t : Table κ α} {j k : κ} {a : α} (h : k ≠ j) :
    (t.insert j a).get? k = t.get? k := by
  rw [get?_insert, if_neg h]

theorem get?_erase (t : Table κ α) (j k : κ) :
    (t.erase j).get? k = if k = j then none else t.get? k := by
  simp [get?, erase, Std.TreeMap.getElem?_erase, @eq_comm _ k j]

theorem get?_erase_of_ne {t : Table κ α} {j k : κ} (h : k ≠ j) :
    (t.erase j).get? k = t.get? k := by
  rw [get?_erase, if_neg h]

theorem get?_modify (t : Table κ α) (j k : κ) (f : α → α) :
    (t.modify j f).get? k = if k = j then (t.get? k).map f else t.get? k := by
  by_cases h : k = j
  · subst h
    simp [get?, modify]
  · simp [get?, modify, Std.TreeMap.getElem?_modify, h, Ne.symm h]

end Table
end Reclaim
