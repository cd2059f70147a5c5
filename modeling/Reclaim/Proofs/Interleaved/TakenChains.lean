import Mathlib.Data.List.Dedup
import Mathlib.Data.List.Perm.Basic
import Reclaim.Abandoned
import Reclaim.Proofs.Interleaved.CellPlaces
import Reclaim.Proofs.Interleaved.QueueHistory

/-!
What becomes of the cells that were pushed on an interleaved stack. The history alone tells which
of them stand in the stack, which came with each taking and which were freed by each thread; what
the memory holds at each place agrees with it (`Tallied.shift`), also where the address of a freed
cell is used again while a push still expects the old cell to be the head.
-/

set_option autoImplicit false

namespace Reclaim.Interleaved
variable {α : Type} {t : ThreadId} {h h' : List (StackEvent α)}

namespace StackEvent

def pushed? : StackEvent α → Option (Address × α)
  | pushed a x => some (a, x)
  | _ => none

def freed? : StackEvent α → Option (ThreadId × Address × α)
  | freed t a x => some (t, a, x)
  | _ => none

end StackEvent

def pushes (h : List (StackEvent α)) : List (Address × α) := h.filterMap StackEvent.pushed?

/-- What was pushed since the last taking; the last push comes first. -/
def standing : List (StackEvent α) → List (Address × α)
  | [] => []
  | .pushed a x :: h => (a, x) :: standing h
  | .taken .. :: _ => []
  | .freed .. :: h => standing h

/-- Each taking with what was pushed since the one before it; the last taking comes first. -/
def takings : List (StackEvent α) → List (ThreadId × List (Address × α))
  | [] => []
  | .taken t _ :: h => (t, standing h) :: takings h
  | .pushed .. :: h => takings h
  | .freed .. :: h => takings h

/-- The cells that were taken, each with its taker, in the order of the takings and their chains. -/
def takes (h : List (StackEvent α)) : List (ThreadId × Address × α) :=
  (takings h).reverse.flatMap fun x => x.2.map (x.1, ·)

def frees (h : List (StackEvent α)) : List (ThreadId × Address × α) :=
  (h.filterMap StackEvent.freed?).reverse

def takers (h : List (StackEvent α)) : List ThreadId := ((takings h).map (·.1)).dedup

theorem pushes_eq (h : List (StackEvent α)) :
    pushes h = standing h ++ (takings h).flatMap (·.2) := by
  induction h with
  | nil => rfl
  | cons e h ih =>
    cases e with
    | pushed a x => exact congrArg ((a, x) :: ·) ih
    | taken t start => exact ih
    | freed t a x => exact ih

theorem takes_taken (t : ThreadId) (start : Option Address) (h : List (StackEvent α)) :
    takes (.taken t start :: h) = takes h ++ (standing h).map (t, ·) := by
  rw [takes, takings, List.reverse_cons, List.flatMap_append, List.flatMap_singleton]
  rfl

theorem frees_freed (t : ThreadId) (a : Address) (x : α) (h : List (StackEvent α)) :
    frees (.freed t a x :: h) = frees h ++ [(t, a, x)] :=
  List.reverse_cons

theorem ofThread_tagged (t u : ThreadId) (l : List (Address × α)) :
    ofThread t (l.map (u, ·)) = if u = t then l else [] := by
  by_cases hut : u = t <;> simp [ofThread, hut, List.filter_map, Function.comp_def]

theorem takes_perm (h : List (StackEvent α)) :
    ((takes h).map (·.2)).Perm ((takings h).flatMap (·.2)) := by
  have hcells : (takes h).map (·.2) = (takings h).reverse.flatMap (·.2) := by
    simp [takes, List.map_flatMap, Function.comp_def]
  rw [hcells]
  exact (List.reverse_perm _).flatMap_right _

theorem mem_takers {x : ThreadId × Address × α} (hx : x ∈ takes h) : x.1 ∈ takers h := by
  obtain ⟨y, hy, hxy⟩ := List.mem_flatMap.1 hx
  obtain ⟨c, -, rfl⟩ := List.mem_map.1 hxy
  exact List.mem_dedup.2 (List.mem_map.2 ⟨y, List.mem_reverse.1 hy, rfl⟩)

theorem flatMap_ofThread_singleton {ts : List ThreadId} (hts : ts.Nodup)
    {x : ThreadId × Address × α} (hx : x.1 ∈ ts) :
    (ts.flatMap fun t => ofThread t [x]) = [x.2] := by
  obtain ⟨front, rest, rfl⟩ := List.append_of_mem hx
  have hother {us : List ThreadId} (hus : x.1 ∉ us) :
      (us.flatMap fun t => ofThread t [x]) = [] := by
    refine List.flatMap_eq_nil_iff.2 fun u hu => ofThread_of_ne ?_ x.2
    rintro rfl
    exact hus hu
  have hnew := (List.nodup_cons.1 (List.nodup_middle.1 hts)).1
  rw [List.mem_append, not_or] at hnew
  rw [List.flatMap_append, List.flatMap_cons, hother hnew.1, hother hnew.2]
  exact congrArg (· ++ []) (ofThread_self x.2)

/-- No occurrence is lost when a list is divided by threads. -/
theorem flatMap_ofThread_perm {ts : List ThreadId} (hts : ts.Nodup)
    {l : List (ThreadId × Address × α)} (hl : ∀ x ∈ l, x.1 ∈ ts) :
    (ts.flatMap fun t => ofThread t l).Perm (l.map (·.2)) := by
  induction l with
  | nil => simp [ofThread]
  | cons x l ih =>
    have hfirst := flatMap_ofThread_singleton hts (hl x List.mem_cons_self)
    have hrest := ih fun y hy => hl y (List.mem_cons_of_mem _ hy)
    calc
      (ts.flatMap fun t => ofThread t (x :: l)) =
          ts.flatMap fun t => ofThread t [x] ++ ofThread t l :=
        List.flatMap_congr fun t _ => ofThread_append [x] l
      _ |>.Perm ((ts.flatMap fun t => ofThread t [x]) ++ ts.flatMap fun t => ofThread t l) :=
        (List.flatMap_append_perm ts _ _).symm
      _ |>.Perm ([x.2] ++ l.map (·.2)) := by
        rw [hfirst]
        exact hrest.append_left _

/-- A push that is under way keeps its cell until it has succeeded. -/
theorem Shift.pushing {held held' : Place → List (Address × α)} (hshift : Shift held h held' h')
    {x : Address × α} (hx : x ∈ held (.pushing t)) :
    x ∈ held' (.pushing t) ∨ h' = .pushed x.1 x.2 :: h := by
  cases hshift with
  | still => exact .inl hx
  | begin u a y hempty =>
    left
    rwa [Function.update_of_ne]
    rintro ⟨⟩
    rw [hempty] at hx
    cases hx
  | push u a y hheld =>
    by_cases htu : t = u
    · rw [htu, hheld] at hx
      obtain rfl := List.mem_singleton.1 hx
      exact .inr rfl
    · left
      rwa [Function.update_of_ne (by nofun),
        Function.update_of_ne fun heq => htu (Place.pushing.inj heq)]
  | take u start _ =>
    left
    rwa [Function.update_of_ne (by nofun), Function.update_of_ne (by nofun)]
  | free u a y rest _ =>
    left
    rwa [Function.update_of_ne (by nofun)]

namespace StackState
variable {s : StackState α} {held held' : Place → List (Address × α)}

structure Tallied (held : Place → List (Address × α)) (h : List (StackEvent α)) : Prop where
  stack : held .stack = standing h
  hand : ∀ t, ofThread t (frees h) ++ held (.hand t) = ofThread t (takes h)

theorem Tallied.shift (T : Tallied held h) (hshift : Shift held h held' h') :
    Tallied held' h' := by
  cases hshift with
  | still => exact T
  | begin t a x =>
    refine ⟨?_, fun u => ?_⟩
    · rw [Function.update_of_ne (by nofun)]
      exact T.stack
    · rw [Function.update_of_ne (by nofun)]
      exact T.hand u
  | push t a x =>
    refine ⟨?_, fun u => ?_⟩
    · rw [Function.update_self, T.stack]
      rfl
    · rw [Function.update_of_ne (by nofun), Function.update_of_ne (by nofun)]
      exact T.hand u
  | take t start hempty =>
    refine ⟨?_, fun u => ?_⟩
    · rw [Function.update_of_ne (by nofun), Function.update_self]
      rfl
    · have hhand := T.hand u
      rw [takes_taken, ofThread_append, ofThread_tagged, ← hhand, ← T.stack]
      split
      · rename_i htu
        rw [← htu, Function.update_self, hempty, List.append_nil]
        rfl
      · rename_i htu
        rw [Function.update_of_ne fun heq => htu (Place.hand.inj heq).symm,
          Function.update_of_ne (by nofun), List.append_nil]
        rfl
  | free t a x rest hheld =>
    refine ⟨?_, fun u => ?_⟩
    · rw [Function.update_of_ne (by nofun)]
      exact T.stack
    · refine Eq.trans ?_ (T.hand u)
      rw [frees_freed, ofThread_append, List.append_assoc]
      congr 1
      by_cases hut : u = t
      · rw [hut, ofThread_self, Function.update_self, hheld]
        rfl
      · rw [ofThread_of_ne (Ne.symm hut), Function.update_of_ne fun heq => hut (Place.hand.inj heq)]
        rfl

/-- What was taken and not yet freed is in the hands of the takers. -/
theorem Tallied.taken_perm (T : Tallied held h) :
    ((takings h).flatMap (·.2)).Perm
      (((takers h).flatMap fun t => held (.hand t)) ++ (frees h).map (·.2)) := by
  have hts : (takers h).Nodup := List.nodup_dedup _
  have hfrees : ∀ x ∈ frees h, x.1 ∈ takers h := by
    intro x hx
    have htaken : x.2 ∈ ofThread x.1 (takes h) := by
      rw [← T.hand x.1]
      exact List.mem_append_left _ (mem_ofThread.2 hx)
    exact mem_takers (mem_ofThread.1 htaken)
  calc
    ((takings h).flatMap (·.2)).Perm ((takes h).map (·.2)) := (takes_perm h).symm
    _ |>.Perm ((takers h).flatMap fun t => ofThread t (takes h)) :=
      (flatMap_ofThread_perm hts fun _ => mem_takers).symm
    _ = (takers h).flatMap fun t => ofThread t (frees h) ++ held (.hand t) :=
      List.flatMap_congr fun t _ => (T.hand t).symm
    _ |>.Perm (((takers h).flatMap fun t => ofThread t (frees h)) ++
        (takers h).flatMap fun t => held (.hand t)) :=
      (List.flatMap_append_perm _ _ _).symm
    _ |>.Perm ((frees h).map (·.2) ++ (takers h).flatMap fun t => held (.hand t)) :=
      (flatMap_ofThread_perm hts hfrees).append_right _
    _ |>.Perm (((takers h).flatMap fun t => held (.hand t)) ++ (frees h).map (·.2)) :=
      List.perm_append_comm

theorem Reachable.tallied (hs : s.Reachable) : Tallied s.cellsAt s.history := by
  induction hs with
  | initial =>
    refine ⟨rfl, fun t => ?_⟩
    rw [cellsAt, Table.get?_empty]
    rfl
  | move m hs ih => exact ih.shift (hs.shift m)

theorem Reachable.push (hs : s.Reachable) {a : Address} (hp : s.pushing.get? t = none)
    (ha : s.stack.cells.get? a = none) (x : α) :
    (s.move (.push t a x)).cellsAt = Function.update s.cellsAt (.pushing t) [(a, x)] := by
  obtain ⟨place, K⟩ := hs.kept
  have hmove : s.move (.push t a x) =
      { s with
        stack := s.stack.allocate a x
        pushing := s.pushing.insert t (a, .readHead) } := by
    simp [StackState.move, Table.contains, hp, ha]
  rw [hmove]
  exact (K.begin hp ha x).cellsAt_eq

/-- The whole stack goes to the taker. -/
theorem Reachable.takeAll (hs : s.Reachable) (hp : s.pushing.get? t = none)
    (hc : s.chains.get? t = none) :
    (s.move (.takeAll t)).cellsAt =
        Function.update (Function.update s.cellsAt .stack []) (.hand t) (s.cellsAt .stack) ∧
      takings (s.move (.takeAll t)).history = (t, s.cellsAt .stack) :: takings s.history := by
  obtain ⟨place, K⟩ := hs.kept
  have hmove : s.move (.takeAll t) =
      { s with
        stack := { s.stack with head := none }
        chains := s.chains.insert t s.stack.head
        history := .taken t s.stack.head :: s.history } := by
    simp [StackState.move, Table.contains, hp, hc, Stack.takeAll]
  rw [hmove, takings, ← hs.tallied.stack]
  exact ⟨(K.take hc _).cellsAt_eq, rfl⟩

def inHands (s : StackState α) : List (Address × α) :=
  (takers s.history).flatMap fun t => s.cellsAt (.hand t)

def recordsOf (l : List (Address × Bag)) : List Retired := l.flatMap (·.2.records)

/-- The records of the bag that a taker merges its chain into. -/
def adopted (l : List (Address × Bag)) : List Retired :=
  (Abandoned.merged (l.map (·.2))).elim [] (·.records)

theorem adopted_perm (l : List (Address × Bag)) : (adopted l).Perm (recordsOf l) := by
  have hmerged := Abandoned.merged_perm ⟨l.map (·.2)⟩
  rwa [Abandoned.records, List.flatMap_map] at hmerged

/-- Each bag that was pushed is once either in the stack or in one chain that was taken. A chain is
what was in the stack when it was taken, the last push first, and leads to nothing at its end; its
taker comes to each bag of it once and in this order. No cell in memory is in two chains, or in a
chain and still to be pushed, and a push that was begun keeps its bag until it has succeeded. So
each record is in the stack or goes to a taker as often as it was pushed, and is then in the taker's
hands or in a bag that was merged and freed. -/
theorem Reachable.adopted_once {s : StackState Bag} (hs : s.Reachable) :
    s.stack.Leads s.stack.head (s.cellsAt .stack) ∧
    (∀ t start, s.chains.get? t = some start → s.stack.Leads start (s.cellsAt (.hand t))) ∧
    (∀ a, s.stack.cells.contains a = true → ∃! p, a ∈ (s.cellsAt p).map (·.1)) ∧
    s.cellsAt .stack = standing s.history ∧
    pushes s.history = s.cellsAt .stack ++ (takings s.history).flatMap (·.2) ∧
    (∀ t, ofThread t (frees s.history) ++ s.cellsAt (.hand t) = ofThread t (takes s.history)) ∧
    (∀ t, s.pushing.get? t = none → s.chains.get? t = none →
      (s.move (.takeAll t)).cellsAt .stack = [] ∧
        (s.move (.takeAll t)).cellsAt (.hand t) = s.cellsAt .stack ∧
        takings (s.move (.takeAll t)).history = (t, s.cellsAt .stack) :: takings s.history) ∧
    (∀ t a b, s.pushing.get? t = none → s.stack.cells.get? a = none →
      (s.move (.push t a b)).cellsAt (.pushing t) = [(a, b)]) ∧
    (∀ m t, ∀ x ∈ s.cellsAt (.pushing t), x ∈ (s.move m).cellsAt (.pushing t) ∨
      (s.move m).history = .pushed x.1 x.2 :: s.history) ∧
    (recordsOf (pushes s.history)).Perm
      (recordsOf (s.cellsAt .stack) ++ (takings s.history).flatMap fun x => adopted x.2) ∧
    (recordsOf (pushes s.history)).Perm (recordsOf (s.cellsAt .stack) ++ recordsOf s.inHands ++
      recordsOf ((frees s.history).map (·.2))) := by
  obtain ⟨place, K⟩ := hs.kept
  have T := hs.tallied
  have hpushes : pushes s.history = s.cellsAt .stack ++ (takings s.history).flatMap (·.2) := by
    rw [T.stack, pushes_eq]
  refine ⟨K.stack, fun t start ht => ?_, fun a ha => ?_, T.stack, hpushes, T.hand,
    fun t hp hc => ?_, fun t a b hp ha => ?_, fun m t x hx => (hs.shift m).pushing hx, ?_, ?_⟩
  · have hhand := K.hand t
    rwa [ht] at hhand
  · obtain ⟨p, hp⟩ := K.found a ha
    obtain ⟨x, hx, rfl⟩ := List.mem_map.1 hp
    refine ⟨p, hp, fun q hq => ?_⟩
    obtain ⟨y, hy, hxy⟩ := List.mem_map.1 hq
    exact K.eq_of_mem hy hx hxy
  · obtain ⟨hcells, htakings⟩ := hs.takeAll hp hc
    rw [hcells, Function.update_self, Function.update_of_ne (by nofun), Function.update_self]
    exact ⟨rfl, rfl, htakings⟩
  · rw [hs.push hp ha, Function.update_self]
  · rw [hpushes, recordsOf, List.flatMap_append, List.flatMap_assoc]
    refine List.Perm.append_left _ (List.Perm.flatMap_left _ fun x _ => ?_)
    exact (adopted_perm x.2).symm
  · rw [hpushes, recordsOf, List.flatMap_append, List.append_assoc]
    refine List.Perm.append_left _ ?_
    have hrecords := T.taken_perm.flatMap_right (·.2.records)
    rwa [List.flatMap_append] at hrecords

theorem Reachable.foldl (hs : s.Reachable) (ms : List (StackMove α)) :
    (ms.foldl StackState.move s).Reachable := by
  induction ms generalizing s with
  | nil => exact hs
  | cons m ms ih => exact ih (.move m hs)

/-- Thread 1 has read the first cell as the head and linked its own to it. Before it exchanges the
head, thread 2 takes the chain and frees the cell, and thread 3 pushes another at the same address.
The exchange succeeds, and thread 2 takes the new chain. -/
def reused : StackState Bag :=
  let steps (n : Nat) (t : ThreadId) : List (StackMove Bag) := List.replicate n (.step t false)
  let bag (a : Address) : Bag := .single ⟨a, .boxed⟩
  let moves := .push 0 1 (bag 11) :: steps 3 0 ++ .push 1 2 (bag 12) :: steps 2 1 ++
    .takeAll 2 :: .free 2 :: .free 2 :: .push 3 1 (bag 13) :: steps 2 3 ++ .step 3 true ::
    steps 3 3 ++ steps 1 1 ++ [.takeAll 2, .free 2]
  moves.foldl StackState.move {}

theorem reused_adopted :
    reused.Reachable ∧
      (takings reused.history).map (fun x => (x.1, x.2.map (·.1))) = [(2, [2, 1]), (2, [1])] ∧
      recordsOf ((frees reused.history).map (·.2)) = [⟨11, .boxed⟩, ⟨12, .boxed⟩] ∧
      pushes reused.history = reused.cellsAt .stack ++ (takings reused.history).flatMap (·.2) ∧
      (recordsOf (pushes reused.history)).Perm (recordsOf (reused.cellsAt .stack) ++
        recordsOf reused.inHands ++ recordsOf ((frees reused.history).map (·.2))) := by
  have hs : reused.Reachable := .foldl .initial _
  obtain ⟨-, -, -, -, hpushes, -, -, -, -, -, hrecords⟩ := hs.adopted_once
  exact ⟨hs, by decide +kernel, by decide +kernel, hpushes, hrecords⟩

end StackState
end Reclaim.Interleaved
