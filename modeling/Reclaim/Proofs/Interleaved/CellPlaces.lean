import Mathlib.Logic.Function.Basic
import Reclaim.Interleaved.Stack
import Reclaim.Proofs.LinkedCells

/-!
Where the cells of an interleaved stack are: in the stack, in the chain that a thread has taken, or
with a thread that is about to push it. No cell is at two of these places, and none is lost, as each
move is one of a few shifts between them (`Kept.move`). Nothing is said of the head that a push has
read until it is exchanged: its cell may be freed and used again in the meantime.
-/

set_option autoImplicit false

namespace Reclaim.Interleaved

inductive Place where
  | stack
  | hand (t : ThreadId)
  | pushing (t : ThreadId)
  deriving DecidableEq, Repr

variable {α : Type}

inductive Shift (held : Place → List (Address × α)) (h : List (StackEvent α)) :
    (Place → List (Address × α)) → List (StackEvent α) → Prop where
  | still : Shift held h held h
  | begin (t : ThreadId) (a : Address) (x : α) : held (.pushing t) = [] →
      Shift held h (Function.update held (.pushing t) [(a, x)]) h
  | push (t : ThreadId) (a : Address) (x : α) : held (.pushing t) = [(a, x)] →
      Shift held h
        (Function.update (Function.update held (.pushing t) []) .stack ((a, x) :: held .stack))
        (.pushed a x :: h)
  | take (t : ThreadId) (start : Option Address) : held (.hand t) = [] →
      Shift held h (Function.update (Function.update held .stack []) (.hand t) (held .stack))
        (.taken t start :: h)
  | free (t : ThreadId) (a : Address) (x : α) (rest : List (Address × α)) :
      held (.hand t) = (a, x) :: rest →
      Shift held h (Function.update held (.hand t) rest) (.freed t a x :: h)

namespace StackState
variable {s : StackState α} {stack : Stack α} {held : Place → List (Address × α)}
  {place : Address → Option Place} {t : ThreadId} {a : Address} {c : StackCell α} {p q : Place}
  {x y : Address × α} {l : List (Address × α)} {e : Option (Address × Pushing)}

/-- A cell that a thread is pushing. Once it is about to become the head, it is linked to the head
that was read. -/
inductive Pends (stack : Stack α) : Option (Address × Pushing) → List (Address × α) → Prop where
  | idle : Pends stack none []
  | cell {a : Address} {p : Pushing} {c : StackCell α} : stack.cells.get? a = some c →
      (∀ seen, p = .exchange seen → c.next = seen) →
      Pends stack (some (a, p)) [(a, c.content)]

theorem Pends.get (h : Pends stack e l) (hx : x ∈ l) :
    ∃ c, stack.cells.get? x.1 = some c ∧ c.content = x.2 := by
  cases h with
  | idle => cases hx
  | cell hc =>
    obtain rfl := List.mem_singleton.1 hx
    exact ⟨_, hc, rfl⟩

theorem Pends.congr {stack' : Stack α} (h : Pends stack e l)
    (hsame : ∀ x ∈ l, stack'.cells.get? x.1 = stack.cells.get? x.1) : Pends stack' e l := by
  cases h with
  | idle => exact .idle
  | cell hc hlink => exact .cell ((hsame _ (List.mem_singleton_self _)).trans hc) hlink

def cellsAt (s : StackState α) : Place → List (Address × α)
  | .stack => s.stack.chain s.stack.head
  | .hand t => s.stack.chain (s.chains.get? t).join
  | .pushing t => (s.pushing.get? t).toList.filterMap fun e =>
      (s.stack.cells.get? e.1).map fun c => (e.1, c.content)

/-- The memory leads through the cells that are held at each place, and each cell in memory is held
at one place. -/
structure Kept (s : StackState α) (held : Place → List (Address × α))
    (place : Address → Option Place) : Prop where
  stack : s.stack.Leads s.stack.head (held .stack)
  hand : ∀ t, s.stack.Leads (s.chains.get? t).join (held (.hand t))
  pushing : ∀ t, Pends s.stack (s.pushing.get? t) (held (.pushing t))
  owned : ∀ p, ∀ x ∈ held p, place x.1 = some p
  found : ∀ a, (s.stack.cells.get? a).isSome = true → ∃ p, a ∈ (held p).map (·.1)

theorem stepPush_won (hc : s.stack.cells.get? a = some c) :
    s.stepPush t false a (.exchange s.stack.head) =
      { s with
        stack := { s.stack with head := some a }
        pushing := s.pushing.erase t
        history := .pushed a c.content :: s.history } := by
  simp [stepPush, Pushing.step, Stack.exchangeHead, hc]

theorem stepPush_lost {spurious : Bool} {seen : Option Address}
    (h : ¬ (spurious = false ∧ s.stack.head = seen)) :
    s.stepPush t spurious a (.exchange seen) =
      { s with pushing := s.pushing.insert t (a, .readHead) } := by
  cases spurious with
  | true => rfl
  | false =>
    have hhead : s.stack.head ≠ seen := fun heq => h ⟨rfl, heq⟩
    simp [stepPush, Pushing.step, Stack.exchangeHead, hhead]

namespace Kept

theorem cellsAt_eq (K : Kept s held place) : s.cellsAt = held := by
  funext p
  cases p with
  | stack => exact K.stack.chain_eq
  | hand t => exact (K.hand t).chain_eq
  | pushing t =>
    have h := K.pushing t
    rw [cellsAt]
    generalize s.pushing.get? t = e at h ⊢
    generalize held (.pushing t) = l at h ⊢
    cases h with
    | idle => rfl
    | cell hc => simp [hc]

theorem get (K : Kept s held place) (hx : x ∈ held p) :
    ∃ c, s.stack.cells.get? x.1 = some c ∧ c.content = x.2 := by
  cases p with
  | stack => exact K.stack.get hx
  | hand t => exact (K.hand t).get hx
  | pushing t => exact (K.pushing t).get hx

theorem eq_of_mem (K : Kept s held place) (hx : x ∈ held p) (hy : y ∈ held q) (hxy : x.1 = y.1) :
    p = q := by
  have hp := K.owned p x hx
  rw [hxy, K.owned q y hy] at hp
  exact (Option.some.inj hp).symm

theorem pushing_some (K : Kept s held place) {p : Pushing} (ht : s.pushing.get? t = some (a, p)) :
    ∃ c, s.stack.cells.get? a = some c ∧ held (.pushing t) = [(a, c.content)] ∧
      ∀ seen, p = .exchange seen → c.next = seen := by
  have h := K.pushing t
  rw [ht] at h
  generalize held (.pushing t) = l at h ⊢
  cases h with
  | cell hc hlink => exact ⟨_, hc, rfl, hlink⟩

theorem pushing_eq (K : Kept s held place) {p : Pushing} (ht : s.pushing.get? t = some (a, p))
    (hc : s.stack.cells.get? a = some c) :
    held (.pushing t) = [(a, c.content)] ∧ ∀ seen, p = .exchange seen → c.next = seen := by
  obtain ⟨c₀, hc₀, h⟩ := K.pushing_some ht
  obtain rfl := Option.some.inj (hc.symm.trans hc₀)
  exact h

theorem pushing_none (K : Kept s held place) (ht : s.pushing.get? t = none) :
    held (.pushing t) = [] := by
  have h := K.pushing t
  rw [ht] at h
  generalize held (.pushing t) = l at h ⊢
  cases h
  rfl

theorem hand_none (K : Kept s held place) (ht : s.chains.get? t = none) :
    held (.hand t) = [] := by
  have h := K.hand t
  rw [ht] at h
  exact h.eq_nil

/-- A thread that is pushing a cell goes on, and may have linked the cell. -/
theorem advance (K : Kept s held place) {cells : Table Address (StackCell α)} {p p' : Pushing}
    {c' : StackCell α} (ht : s.pushing.get? t = some (a, p)) (hc : s.stack.cells.get? a = some c)
    (hcells : ∀ b, b ≠ a → cells.get? b = s.stack.cells.get? b) (hc' : cells.get? a = some c')
    (hcontent : c'.content = c.content) (hlink : ∀ seen, p' = .exchange seen → c'.next = seen) :
    Kept { s with stack := { s.stack with cells }, pushing := s.pushing.insert t (a, p') } held
      place := by
  have hheld := (K.pushing_eq ht hc).1
  have hself : (a, c.content) ∈ held (.pushing t) := by rw [hheld]; exact List.mem_singleton_self _
  have hsame {q : Place} (hq : q ≠ .pushing t) :
      ∀ x ∈ held q, cells.get? x.1 = s.stack.cells.get? x.1 :=
    fun x hx => hcells x.1 fun hxa => hq (K.eq_of_mem hx hself hxa)
  refine ⟨K.stack.congr (hsame nofun), fun u => (K.hand u).congr (hsame nofun), fun u => ?_,
    K.owned, fun b hb => ?_⟩
  · rw [Table.get?_insert]
    split
    · rename_i hut
      rw [hut, hheld, ← hcontent]
      exact .cell hc' hlink
    · rename_i hut
      exact (K.pushing u).congr (hsame fun heq => hut (Place.pushing.inj heq))
  · by_cases hba : b = a
    · exact ⟨.pushing t, by rw [hheld, hba]; exact List.mem_singleton_self _⟩
    · exact K.found b (by rwa [← hcells b hba])

/-- A thread begins to push a new cell. -/
theorem begin (K : Kept s held place) (ht : s.pushing.get? t = none)
    (ha : s.stack.cells.get? a = none) (x : α) :
    Kept { s with
        stack := s.stack.allocate a x
        pushing := s.pushing.insert t (a, .readHead) }
      (Function.update held (.pushing t) [(a, x)])
      (Function.update place a (some (.pushing t))) := by
  have hne {q : Place} {y : Address × α} (hy : y ∈ held q) : y.1 ≠ a := by
    rintro rfl
    obtain ⟨c, hc, -⟩ := K.get hy
    rw [ha] at hc
    cases hc
  have hsame (q : Place) : ∀ y ∈ held q,
      (s.stack.allocate a x).cells.get? y.1 = s.stack.cells.get? y.1 :=
    fun y hy => Table.get?_insert_of_ne (hne hy)
  refine ⟨?_, fun u => ?_, fun u => ?_, fun q y hy => ?_, fun b hb => ?_⟩
  · rw [Function.update_of_ne (by nofun)]
    exact K.stack.congr (hsame _)
  · rw [Function.update_of_ne (by nofun)]
    exact (K.hand u).congr (hsame _)
  · rw [Table.get?_insert]
    split
    · rename_i hut
      rw [hut, Function.update_self]
      exact .cell (c := { content := x }) (Table.get?_insert_self ..) (by nofun)
    · rename_i hut
      rw [Function.update_of_ne fun heq => hut (Place.pushing.inj heq)]
      exact (K.pushing u).congr (hsame _)
  · by_cases hq : q = .pushing t
    · rw [hq, Function.update_self, List.mem_singleton] at hy
      rw [hy, hq, Function.update_self]
    · rw [Function.update_of_ne hq] at hy
      rw [Function.update_of_ne (hne hy)]
      exact K.owned q y hy
  · by_cases hba : b = a
    · exact ⟨.pushing t, by rw [Function.update_self, hba]; exact List.mem_singleton_self _⟩
    · obtain ⟨q, hq⟩ := K.found b (by rwa [← Table.get?_insert_of_ne hba])
      refine ⟨q, ?_⟩
      rwa [Function.update_of_ne]
      rintro rfl
      rw [K.pushing_none ht] at hq
      cases hq

/-- A cell that is linked to the head becomes the head. -/
theorem push (K : Kept s held place) (ht : s.pushing.get? t = some (a, .exchange s.stack.head))
    (hc : s.stack.cells.get? a = some c) (h : List (StackEvent α)) :
    Kept { s with
        stack := { s.stack with head := some a }
        pushing := s.pushing.erase t
        history := h }
      (Function.update (Function.update held (.pushing t) []) .stack
        ((a, c.content) :: held .stack))
      (Function.update place a (some .stack)) := by
  obtain ⟨hheld, hlink⟩ := K.pushing_eq ht hc
  have hself : (a, c.content) ∈ held (.pushing t) := by rw [hheld]; exact List.mem_singleton_self _
  have hchain := K.stack
  rw [← hlink _ rfl] at hchain
  refine ⟨?_, fun u => ?_, fun u => ?_, fun q y hy => ?_, fun b hb => ?_⟩
  · rw [Function.update_self]
    exact (Stack.Leads.cons hc hchain).congr fun _ _ => rfl
  · rw [Function.update_of_ne (by nofun), Function.update_of_ne (by nofun)]
    exact (K.hand u).congr fun _ _ => rfl
  · rw [Function.update_of_ne (by nofun), Table.get?_erase]
    split
    · rename_i hut
      rw [hut, Function.update_self]
      exact .idle
    · rename_i hut
      rw [Function.update_of_ne fun heq => hut (Place.pushing.inj heq)]
      exact (K.pushing u).congr fun _ _ => rfl
  · by_cases hq : q = .stack
    · rw [hq, Function.update_self] at hy
      rw [hq, Function.update_apply]
      split
      · rfl
      · rename_i hne
        rcases List.mem_cons.1 hy with rfl | hy
        · exact absurd rfl hne
        · exact K.owned .stack y hy
    · rw [Function.update_of_ne hq, Function.update_apply] at hy
      split at hy
      · cases hy
      · rename_i hqt
        rw [Function.update_of_ne fun hya => hqt (K.eq_of_mem hy hself hya)]
        exact K.owned q y hy
  · obtain ⟨q, hq⟩ := K.found b hb
    by_cases hqt : q = .pushing t
    · rw [hqt, hheld] at hq
      obtain rfl := List.mem_singleton.1 hq
      exact ⟨.stack, by rw [Function.update_self]; exact List.mem_cons_self⟩
    · by_cases hqs : q = .stack
      · exact ⟨.stack, by rw [Function.update_self]; exact List.mem_cons_of_mem _ (hqs ▸ hq)⟩
      · exact ⟨q, by rwa [Function.update_of_ne hqs, Function.update_of_ne hqt]⟩

/-- A thread takes all cells of the stack. -/
theorem take (K : Kept s held place) (ht : s.chains.get? t = none) (h : List (StackEvent α)) :
    Kept { s with
        stack := { s.stack with head := none }
        chains := s.chains.insert t s.stack.head
        history := h }
      (Function.update (Function.update held .stack []) (.hand t) (held .stack))
      (fun a => if place a = some .stack then some (.hand t) else place a) := by
  refine ⟨?_, fun u => ?_, fun u => ?_, fun q y hy => ?_, fun b hb => ?_⟩
  · rw [Function.update_of_ne (by nofun), Function.update_self]
    exact .nil
  · rw [Table.get?_insert]
    split
    · rename_i hut
      rw [hut, Function.update_self]
      exact K.stack.congr fun _ _ => rfl
    · rename_i hut
      rw [Function.update_of_ne fun heq => hut (Place.hand.inj heq),
        Function.update_of_ne (by nofun)]
      exact (K.hand u).congr fun _ _ => rfl
  · rw [Function.update_of_ne (by nofun), Function.update_of_ne (by nofun)]
    exact (K.pushing u).congr fun _ _ => rfl
  · by_cases hq : q = .hand t
    · rw [hq, Function.update_self] at hy
      rw [hq, if_pos (K.owned .stack y hy)]
    · rw [Function.update_of_ne hq, Function.update_apply] at hy
      split at hy
      · cases hy
      · rename_i hqs
        have hplace := K.owned q y hy
        rw [if_neg fun hstack => hqs (Option.some.inj (hplace.symm.trans hstack)), hplace]
  · obtain ⟨q, hq⟩ := K.found b hb
    by_cases hqs : q = .stack
    · exact ⟨.hand t, by rw [Function.update_self]; exact hqs ▸ hq⟩
    · refine ⟨q, ?_⟩
      rwa [Function.update_of_ne, Function.update_of_ne hqs]
      rintro rfl
      rw [K.hand_none ht] at hq
      cases hq

/-- A thread frees the first cell of the chain that it has taken. -/
theorem free (K : Kept s held place) (ht : s.chains.get? t = some (some a))
    (hc : s.stack.cells.get? a = some c) (h : List (StackEvent α)) :
    ∃ rest, held (.hand t) = (a, c.content) :: rest ∧
      Kept { s with
          stack := s.stack.free a
          chains := s.chains.insert t c.next
          history := h }
        (Function.update held (.hand t) rest) place := by
  have hhand := K.hand t
  rw [ht] at hhand
  obtain ⟨rest, hheld, hrest⟩ := hhand.eq_cons hc
  have hself : (a, c.content) ∈ held (.hand t) := by rw [hheld]; exact List.mem_cons_self
  have hnodup := hhand.nodup
  rw [hheld] at hnodup
  have hfirst : ∀ y ∈ rest, y.1 ≠ a := fun y hy hya =>
    (List.nodup_cons.1 hnodup).1 (List.mem_map.2 ⟨y, hy, hya⟩)
  have hsame {q : Place} (hq : q ≠ .hand t) :
      ∀ y ∈ held q, (s.stack.free a).cells.get? y.1 = s.stack.cells.get? y.1 :=
    fun y hy => Table.get?_erase_of_ne fun hya => hq (K.eq_of_mem hy hself hya)
  refine ⟨rest, hheld, ?_, fun u => ?_, fun u => ?_, fun q y hy => ?_, fun b hb => ?_⟩
  · rw [Function.update_of_ne (by nofun)]
    exact K.stack.congr (hsame nofun)
  · rw [Table.get?_insert]
    split
    · rename_i hut
      rw [hut, Function.update_self]
      exact hrest.congr fun y hy => Table.get?_erase_of_ne (hfirst y hy)
    · rename_i hut
      have hne : Place.hand u ≠ .hand t := fun heq => hut (Place.hand.inj heq)
      rw [Function.update_of_ne hne]
      exact (K.hand u).congr (hsame hne)
  · rw [Function.update_of_ne (by nofun)]
    exact (K.pushing u).congr (hsame nofun)
  · rw [Function.update_apply] at hy
    split at hy
    · rename_i hq
      exact K.owned q y (by rw [hq, hheld]; exact List.mem_cons_of_mem _ hy)
    · exact K.owned q y hy
  · obtain ⟨hba, hb⟩ := Table.isSome_of_erased hb
    obtain ⟨q, hq⟩ := K.found b hb
    by_cases hqt : q = .hand t
    · rw [hqt, hheld] at hq
      refine ⟨.hand t, ?_⟩
      rw [Function.update_self]
      exact (List.mem_cons.1 hq).resolve_left hba
    · exact ⟨q, by rwa [Function.update_of_ne hqt]⟩

theorem stepPush (K : Kept s held place) {p : Pushing} (ht : s.pushing.get? t = some (a, p))
    (spurious : Bool) :
    ∃ held' place', Kept (s.stepPush t spurious a p) held' place' ∧
      Shift held s.history held' (s.stepPush t spurious a p).history := by
  obtain ⟨c, hc, hheld, -⟩ := K.pushing_some ht
  cases p with
  | readHead =>
    exact ⟨held, place, K.advance ht hc (fun _ _ => rfl) hc rfl (by rintro _ ⟨⟩), .still⟩
  | link seen =>
    have hlinked : (s.stack.setNext a seen).cells.get? a = some { c with next := seen } := by
      rw [Stack.setNext, Table.get?_modify, if_pos rfl, hc, Option.map_some]
    refine ⟨held, place, K.advance ht hc (fun b hba => ?_) hlinked rfl
      (fun _ heq => Pushing.exchange.inj heq), .still⟩
    rw [Table.get?_modify, if_neg hba]
  | exchange seen =>
    by_cases hwon : spurious = false ∧ s.stack.head = seen
    · obtain ⟨rfl, rfl⟩ := hwon
      rw [stepPush_won hc]
      exact ⟨_, _, K.push ht hc _, .push t a c.content hheld⟩
    · rw [stepPush_lost hwon]
      exact ⟨held, place, K.advance ht hc (fun _ _ => rfl) hc rfl (by rintro _ ⟨⟩), .still⟩

/-- Each move is a shift of cells between their places. -/
theorem move (K : Kept s held place) (m : StackMove α) :
    ∃ held' place', Kept (s.move m) held' place' ∧
      Shift held s.history held' (s.move m).history := by
  cases m with
  | push t a x =>
    rw [StackState.move]
    split
    · exact ⟨held, place, K, .still⟩
    · rename_i hfree
      simp only [Bool.or_eq_true, not_or, Table.contains, Option.not_isSome_iff_eq_none] at hfree
      exact ⟨_, _, K.begin hfree.1 hfree.2 x, .begin t a x (K.pushing_none hfree.1)⟩
  | step t spurious =>
    rw [StackState.move]
    split
    · rename_i ht
      exact K.stepPush ht spurious
    · exact ⟨held, place, K, .still⟩
  | takeAll t =>
    rw [StackState.move]
    split
    · exact ⟨held, place, K, .still⟩
    · rename_i hfree
      simp only [Bool.or_eq_true, not_or, Table.contains, Option.not_isSome_iff_eq_none] at hfree
      exact ⟨_, _, K.take hfree.2 _, .take t s.stack.head (K.hand_none hfree.2)⟩
  | free t =>
    rw [StackState.move]
    split
    · exact ⟨held, place, K, .still⟩
    · rename_i ht
      refine ⟨held, place, ⟨K.stack, fun u => ?_, K.pushing, K.owned, K.found⟩, .still⟩
      have hhand := K.hand u
      rw [Table.get?_erase]
      split
      · rename_i hut
        rw [hut, ht] at hhand
        exact hut ▸ hhand
      · exact hhand
    · rename_i a ht
      split
      · exact ⟨held, place, K, .still⟩
      · rename_i c hc
        obtain ⟨rest, hheld, hfree⟩ := K.free ht hc (.freed t a c.content :: s.history)
        exact ⟨_, _, hfree, .free t a c.content rest hheld⟩

end Kept

theorem Reachable.kept (hs : s.Reachable) : ∃ place, Kept s s.cellsAt place := by
  have hkept : ∃ held place, Kept s held place := by
    induction hs with
    | initial =>
      refine ⟨fun _ => [], fun _ => none, .nil, fun t => ?_, fun t => ?_, nofun, fun a ha => ?_⟩
      · rw [Table.get?_empty]
        exact .nil
      · rw [Table.get?_empty]
        exact .idle
      · rw [Table.get?_empty] at ha
        cases ha
    | move m _ ih =>
      obtain ⟨held, place, K⟩ := ih
      obtain ⟨held', place', K', -⟩ := K.move m
      exact ⟨held', place', K'⟩
  obtain ⟨held, place, K⟩ := hkept
  exact ⟨place, K.cellsAt_eq ▸ K⟩

theorem Reachable.shift (hs : s.Reachable) (m : StackMove α) :
    Shift s.cellsAt s.history (s.move m).cellsAt (s.move m).history := by
  obtain ⟨place, K⟩ := hs.kept
  obtain ⟨held', place', K', hshift⟩ := K.move m
  rwa [K'.cellsAt_eq]

end StackState
end Reclaim.Interleaved
