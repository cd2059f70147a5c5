import Reclaim.Proofs.FlushedBags

/-!
How a bag is drained in place. The list of a bag is walked through by position, and the last record
takes the place of one that goes and is looked at next. Such a walk takes one step for each record
and ends with what a drain gives (`Walk.ends`). The records are divided by whether the snapshot has
their address, each for itself even where several have one address; where all of them stay, nothing
moves (`Bag.drainUnprotected_divides`).
-/

set_option autoImplicit false

namespace Reclaim

/-- To put the last record in the place of one that goes fills the gap in what is behind it. -/
theorem toList_swap_pop {xs : Array Retired} {i : Nat} (h : i < xs.size) :
    (xs.swap i (xs.size - 1)).pop.toList =
      xs.toList.take i ++ fillGap (xs.toList.drop (i + 1)) := by
  rw [Array.toList_pop, Array.toList_swap]
  rcases Nat.eq_or_lt_of_le (Nat.succ_le_of_lt h) with hlast | hinner
  · have hnil : xs.toList.drop (i + 1) = [] := List.drop_eq_nil_of_le (by simp; omega)
    rw [hnil, fillGap, List.getLast?_nil, List.append_nil, List.dropLast_eq_take]
    obtain rfl : i = xs.size - 1 := by omega
    rw [List.length_set, List.length_set, Array.length_toList, List.take_set_of_le (Nat.le_refl _),
      List.take_set_of_le (Nat.le_refl _)]
  · obtain ⟨k, hk⟩ := Nat.exists_eq_add_of_lt hinner
    have hrest : (xs.toList.drop (i + 1)).take (k + 1) = xs.toList.drop (i + 1) :=
      List.take_of_length_le (by simp; omega)
    rw [← hrest, fillGap_take_drop (by omega)]
    clear hrest
    apply List.ext_getElem
    · simp
      omega
    · intro j h₁ h₂
      have hj : j < xs.size - 1 := by simpa using h₁
      grind

/-- A walk through a list by position. What goes is taken out of the list and follows `drained`. -/
structure Walk where
  content : Array Retired
  drained : List Retired
  position : Nat

namespace Walk
variable {s : Snapshot} {w w' : Walk}

/-- A record that stays is passed; in the place of one that goes the last one is the next to be
looked at. Behind the last record there is no step. -/
def step (s : Snapshot) (w : Walk) : Option Walk :=
  if h : w.position < w.content.size then
    if s.covers w.content[w.position].address then some { w with position := w.position + 1 }
    else
      some { w with
        content := (w.content.swap w.position (w.content.size - 1)).pop
        drained := w.drained ++ [w.content[w.position]] }
  else none

inductive Ends (s : Snapshot) : Nat → Walk → Walk → Prop where
  | here {w : Walk} : w.step s = none → Ends s 0 w w
  | step {n : Nat} {w w' last : Walk} : w.step s = some w' → Ends s n w' last →
      Ends s (n + 1) w last

def left (w : Walk) : Nat := w.content.size - w.position

def outcome (s : Snapshot) (w : Walk) : List Retired × List Retired :=
  let split := separate (fun r => s.covers r.address) (w.content.toList.drop w.position)
  (w.content.toList.take w.position ++ split.1, w.drained ++ split.2)

theorem drop_position (h : w.position < w.content.size) :
    w.content.toList.drop w.position =
      w.content[w.position] :: w.content.toList.drop (w.position + 1) := by
  rw [List.drop_eq_getElem_cons (by simpa using h), Array.getElem_toList]

/-- Each step leaves one record less, and does not change how the walk ends. -/
theorem step_some (h : w.step s = some w') :
    w'.left + 1 = w.left ∧ w'.position ≤ w'.content.size ∧ w'.outcome s = w.outcome s := by
  unfold step at h
  split at h
  · rename_i hlt
    have hdrop := drop_position hlt
    split at h
    · rename_i hstays
      obtain rfl := Option.some.inj h
      refine ⟨?_, hlt, ?_⟩
      · simp only [left]
        omega
      · have htake : w.content.toList.take (w.position + 1) =
            w.content.toList.take w.position ++ [w.content[w.position]] := by
          rw [List.take_succ_eq_append_getElem (by simpa using hlt), Array.getElem_toList]
        simp only [outcome, hdrop, separate, hstays, htake, if_true, List.append_assoc,
          List.singleton_append]
    · rename_i hgoes
      obtain rfl := Option.some.inj h
      have hsize : (w.content.swap w.position (w.content.size - 1)).pop.size =
          w.content.size - 1 := by
        rw [Array.size_pop, Array.size_swap]
      have hlength : (w.content.toList.take w.position).length = w.position := by
        rw [List.length_take, Array.length_toList]
        omega
      refine ⟨?_, ?_, ?_⟩
      · simp only [left, hsize]
        omega
      · simp only [hsize]
        omega
      · simp only [outcome, hdrop, separate, hgoes, toList_swap_pop hlt,
          List.take_left' hlength, List.drop_left' hlength, List.append_assoc,
          List.singleton_append]
        rfl
  · cases h

theorem step_none (h : w.step s = none) :
    w.left = 0 ∧ w.content.size ≤ w.position ∧ w.outcome s = (w.content.toList, w.drained) := by
  unfold step at h
  split at h
  · split at h <;> cases h
  · rename_i hge
    have hsize := Nat.not_lt.1 hge
    have hdrop : w.content.toList.drop w.position = [] := List.drop_eq_nil_of_le (by simpa)
    have htake : w.content.toList.take w.position = w.content.toList :=
      List.take_of_length_le (by simpa)
    refine ⟨Nat.sub_eq_zero_of_le hsize, hsize, ?_⟩
    simp only [outcome, hdrop, htake, separate, List.append_nil]

/-- A walk ends after as many steps as it has records to look at, by induction on their number. -/
theorem ends (hposition : w.position ≤ w.content.size) :
    Ends s w.left w
      ⟨(w.outcome s).1.toArray, (w.outcome s).2, (w.outcome s).1.length⟩ := by
  generalize hn : w.left = n
  induction n generalizing w with
  | zero =>
    cases hstep : w.step s with
    | none =>
      obtain ⟨-, hsize, houtcome⟩ := step_none hstep
      have hself : w = ⟨(w.outcome s).1.toArray, (w.outcome s).2, (w.outcome s).1.length⟩ := by
        rw [houtcome]
        obtain ⟨content, drained, position⟩ := w
        obtain rfl : position = content.size := Nat.le_antisymm hposition hsize
        rfl
      rw [← hself]
      exact .here hstep
    | some w' =>
      have hleft := (step_some hstep).1
      omega
  | succ n ih =>
    cases hstep : w.step s with
    | none =>
      have hleft := (step_none hstep).1
      omega
    | some w' =>
      obtain ⟨hleft, hposition', houtcome⟩ := step_some hstep
      rw [← houtcome]
      exact .step hstep (ih hposition' (by omega))

end Walk

namespace Bag

/-- The walk from the first position on ends with what a drain gives. -/
theorem drainUnprotected_ends (b : Bag) (s : Snapshot) (reclaimable : List Retired) :
    Walk.Ends s b.size ⟨b.content, reclaimable, 0⟩
      ⟨(b.drainUnprotected s reclaimable).1.content, (b.drainUnprotected s reclaimable).2,
        (b.drainUnprotected s reclaimable).1.size⟩ := by
  have hends := Walk.ends (s := s) (w := ⟨b.content, reclaimable, 0⟩) (Nat.zero_le _)
  have hrecords := b.drainUnprotected_records s reclaimable
  have hkept : (b.drainUnprotected s reclaimable).1.content =
      (separate (fun r => s.covers r.address) b.records).1.toArray :=
    Array.toList_inj.1 hrecords
  have hsize : (b.drainUnprotected s reclaimable).1.size =
      (separate (fun r => s.covers r.address) b.records).1.length :=
    congrArg List.length hrecords
  rw [drainUnprotected_snd, hkept, hsize]
  exact hends

/-- A drain ends after one step for each record. The records whose address is in the snapshot stay,
and the others go behind what was reclaimable before; what stays and what goes make up the bag,
each record with its deleter. Where every address is in the snapshot, the bag is as it was. -/
theorem drainUnprotected_divides (b : Bag) (s : Snapshot) (reclaimable : List Retired) :
    ∃ b' gone, b.drainUnprotected s reclaimable = (b', reclaimable ++ gone) ∧
      Walk.Ends s b.size ⟨b.content, reclaimable, 0⟩
        ⟨b'.content, reclaimable ++ gone, b'.size⟩ ∧
      b'.records.Perm (b.records.filter fun r => s.addresses.contains r.address) ∧
      gone.Perm (b.records.filter fun r => !s.addresses.contains r.address) ∧
      (b'.records ++ gone).Perm b.records ∧ b'.capacity = b.capacity ∧
      ((∀ r ∈ b.records, r.address ∈ s.addresses) → b' = b ∧ gone = []) := by
  have hcovers (a : Address) : s.addresses.contains a = s.covers a :=
    Bool.eq_iff_iff.2 (Array.contains_iff_mem.trans (s.covers_iff a).symm)
  have hends := b.drainUnprotected_ends s reclaimable
  have hrecords := b.drainUnprotected_records s reclaimable
  have hsnd := b.drainUnprotected_snd s reclaimable
  have hperm := separate_perm (fun r => s.covers r.address) b.records
  obtain ⟨hgone, hkept⟩ := filter_perm_of_append (List.perm_append_comm.trans hperm)
    (separate_drained _ _) (separate_kept _ _)
  rcases hdrain : b.drainUnprotected s reclaimable with ⟨b', rs⟩
  rw [hdrain] at hends hrecords hsnd
  obtain rfl : rs = _ := hsnd
  simp only [hcovers]
  refine ⟨b', _, rfl, hends, hrecords ▸ hkept, hgone, hrecords ▸ hperm, ?_, fun hall => ?_⟩
  · exact congrArg (fun split => split.1.capacity) hdrain.symm
  · have hstay := b.drainUnprotected_of_covered
      (fun r hr => (s.covers_iff _).2 (hall r hr)) reclaimable
    obtain ⟨hbag, hrest⟩ := Prod.mk.inj (hdrain.symm.trans hstay)
    exact ⟨hbag, List.append_right_eq_self.1 hrest⟩

/-- One address was retired twice, to be destroyed in two ways. -/
def twins : Bag := ⟨#[⟨2, .custom⟩, ⟨1, .boxed⟩, ⟨2, .boxed⟩], 4, by decide⟩

def allSeen : Snapshot := ⟨#[1, 2, 2], by decide⟩

theorem twins_stay :
    (∀ r ∈ twins.records, r.address ∈ allSeen.addresses) ∧
      ∃ b' gone, twins.drainUnprotected allSeen [⟨7, .boxed⟩] = (b', [⟨7, .boxed⟩] ++ gone) ∧
        b' = twins ∧ gone = [] := by
  have hall : ∀ r ∈ twins.records, r.address ∈ allSeen.addresses := by
    simp [twins, allSeen, records]
  obtain ⟨b', gone, hdrain, -, -, -, -, -, hstay⟩ :=
    twins.drainUnprotected_divides allSeen [⟨7, .boxed⟩]
  exact ⟨hall, b', gone, hdrain, hstay hall⟩

/-- The records that fill the gaps are looked at too: the last one stays, the third one goes. -/
example :
    ((⟨#[⟨1, .boxed⟩, ⟨2, .boxed⟩, ⟨3, .custom⟩, ⟨4, .boxed⟩], 4, by decide⟩ :
      Bag).drainUnprotected ⟨#[2, 4], by decide⟩ []).2 = [⟨1, .boxed⟩, ⟨3, .custom⟩] := by
  decide +kernel

end Bag
end Reclaim
