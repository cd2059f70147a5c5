import Reclaim.Panic
import Reclaim.Slot
import Reclaim.Table
import Reclaim.Waiter

/-!
A queue is a chain of nodes from `head` to `tail` with at least one node. The front value is in
the head node itself: with one node left its value is claimed in place, otherwise the head is
unlinked first and its value claimed afterwards, unless it was claimed before.

A round is one pass of an operation through its retry loop, made without interruption. The rounds
share their accesses (`advanceTail`, `exchangeHead`, `claim`) with the interleaved operations.
-/

set_option autoImplicit false

namespace Reclaim

inductive WaitStrategy where
  | yield | condvar
  deriving DecidableEq, Repr

def WaitStrategy.describe : WaitStrategy → String
  | yield => "Yield"
  | condvar => "Condvar"

abbrev Nodes (V : Type) := Table Address (Node V)

/-- The nodes of a chain with their addresses; no result where the chain leads to a cell that is
no node, or does not end after `fuel` nodes. -/
def Nodes.chainFrom {V : Type} (nodes : Nodes V) :
    (fuel : Nat) → Option Address → Option (List (Address × Node V))
  | _, none => some []
  | 0, some _ => none
  | fuel + 1, some a => do
    let n ← nodes.get? a
    let rest ← chainFrom nodes fuel n.next
    some ((a, n) :: rest)

/-- The first value that waits in a chain, where the chain is as long as `fuel` allows and leads to
no cell that is no node before this value. -/
def Nodes.frontFrom {V : Type} (nodes : Nodes V) : (fuel : Nat) → Option Address → Option (Option V)
  | _, none => some none
  | 0, some _ => none
  | fuel + 1, some a => do
    let n ← nodes.get? a
    match n.slot.value? with
    | some v => some (some v)
    | none => frontFrom nodes fuel n.next

abbrev QueueId := Nat

structure Queue where
  id : QueueId
  head : Option Address
  tail : Option Address
  inserted : UInt64 := 0
  removed : UInt64 := 0
  /-- Present if removals wait on a condition variable. -/
  waiter : Option Waiter := none

inductive EnqueueRound (V : Type) where
  | linked (q : Queue) (nodes : Nodes V)
  /-- The tail lagged behind and was advanced. -/
  | helped (q : Queue)
  | failed (p : Panic)
  | dangling (a : Address)

inductive DequeueRound (V : Type) where
  | claimed (v : V) (q : Queue) (nodes : Nodes V)
  | empty
  | helped (q : Queue)
  /-- Head and tail differ, but nothing follows the head yet. -/
  | transient
  /-- Somebody else has moved the head. -/
  | lost
  | unlinked (node : Address) (q : Queue)
  | failed (p : Panic)
  | dangling (a : Address)

inductive Claim (V : Type) where
  | taken (v : V) (q : Queue) (nodes : Nodes V)
  | refused
  | dangling (a : Address)

namespace Queue
variable {V : Type}

def create (id : QueueId) (sentinel : Address) (strategy : WaitStrategy) : Queue where
  id
  head := some sentinel
  tail := some sentinel
  waiter := match strategy with
    | .yield => none
    | .condvar => some {}

def strategy (q : Queue) : WaitStrategy :=
  match q.waiter with
  | some _ => .condvar
  | none => .yield

def isLockFree (q : Queue) : Bool := q.waiter.isNone

/-- Zero where more removals than insertions were counted. -/
def size (q : Queue) : Nat := q.inserted.toNat - q.removed.toNat

def isEmpty (q : Queue) : Bool := q.size == 0

def isFull (_ : Queue) : Bool := false

def describe (q : Queue) : String :=
  Text.record "MpmcQueue" [
    ("len", toString q.size),
    ("wait_strategy", q.strategy.describe)]

def noteInserted (q : Queue) : Queue :=
  { q with inserted := q.inserted + 1, waiter := q.waiter.map Waiter.notify }

/-- Has no effect if the tail is not `current` any more. -/
def advanceTail (q : Queue) (current next : Address) : Queue :=
  if q.tail = some current then { q with tail := some next } else q

def exchangeHead (q : Queue) (current next : Address) : Option Queue :=
  if q.head = some current then some { q with head := some next } else none

def claim (q : Queue) (nodes : Nodes V) (a : Address) : Claim V :=
  match nodes.get? a with
  | none => .dangling a
  | some n =>
    match n.slot.value? with
    | none => .refused
    | some v =>
      .taken v { q with removed := q.removed + 1 } (nodes.insert a { n with slot := .vacant })

def enqueueRound (q : Queue) (nodes : Nodes V) (node : Address) : EnqueueRound V :=
  match q.tail with
  | none => .failed .emptyChain
  | some t =>
    match nodes.get? t with
    | none => .dangling t
    | some last =>
      match last.next with
      | none =>
        .linked (q.advanceTail t node) (nodes.insert t { last with next := some node })
      | some next => .helped (q.advanceTail t next)

def dequeueRound (q : Queue) (nodes : Nodes V) : DequeueRound V :=
  match q.head with
  | none => .failed .emptyChain
  | some h =>
    match nodes.get? h with
    | none => .dangling h
    | some first =>
      if q.tail = some h then
        match q.claim nodes h with
        | .taken v q' nodes' => .claimed v q' nodes'
        | .dangling a => .dangling a
        | .refused =>
          match first.next with
          | none => .empty
          | some next => .helped (q.advanceTail h next)
      else
        match first.next with
        | none => .transient
        | some next =>
          match q.exchangeHead h next with
          | none => .lost
          | some q' => .unlinked h q'

def chain (q : Queue) (nodes : Nodes V) : Option (List (Address × Node V)) :=
  nodes.chainFrom nodes.size q.head

def values (q : Queue) (nodes : Nodes V) : Option (List V) :=
  (q.chain nodes).map fun c => c.filterMap fun e => e.2.slot.value?

def front? (q : Queue) (nodes : Nodes V) : Option (Option V) :=
  nodes.frontFrom nodes.size q.head

theorem frontFrom_eq_head? (nodes : Nodes V) (fuel : Nat) (start : Option Address)
    {c : List (Address × Node V)} (h : nodes.chainFrom fuel start = some c) :
    nodes.frontFrom fuel start = some (c.filterMap fun e => e.2.slot.value?).head? := by
  induction fuel generalizing start c with
  | zero =>
    cases start with
    | none => simp_all [Nodes.chainFrom, Nodes.frontFrom]
    | some a => simp [Nodes.chainFrom] at h
  | succ fuel ih =>
    cases start with
    | none => simp_all [Nodes.chainFrom, Nodes.frontFrom]
    | some a =>
      simp only [Nodes.chainFrom, Option.bind_eq_bind, Option.bind_eq_some_iff] at h
      obtain ⟨n, hn, rest, hrest, hc⟩ := h
      obtain rfl := Option.some.inj hc
      simp only [Nodes.frontFrom, hn, Option.bind_eq_bind, Option.bind_some]
      cases hv : n.slot.value? with
      | some v => simp [hv]
      | none => simp [hv, ih n.next hrest]

theorem front?_eq_head? (q : Queue) (nodes : Nodes V) {vs : List V}
    (h : q.values nodes = some vs) : q.front? nodes = some vs.head? := by
  obtain ⟨c, hc, rfl⟩ := Option.map_eq_some_iff.1 h
  exact frontFrom_eq_head? nodes _ _ hc

end Queue
end Reclaim
