import Reclaim.Proofs.StepCases

/-!
What operations under way have in their keeping, and what can become of it. A step of a run is a
sequence of effects (`Effects`): each changes the world in one place and passes on, takes or gives
up what an operation holds. A property of the world and of what is held that every effect keeps
holds in every reachable state.
-/

set_option autoImplicit false

namespace Reclaim
variable {V : Type}

/-- The first eight kinds are kept by suspended frames, the others only within a step. -/
inductive Holding (V : Type) where
  | visit (queue : Name)
  | hazard (h : Hazard)
  | newNode (node : Address) (content : Payload V)
  | call (queue : Name) (call : CallId)
  | detached (queue : Name) (call : CallId) (h : Hazard) (node : Address)
  | doomed (r : Retired)
  | unbagged (r : Retired)
  | cut (queue : QueueId) (next : Option Address)
  /-- A record that may not be retired by anybody else. -/
  | condemned (r : Retired)
  | uncounted (queue : Name)
  | closing (queue : QueueId) (call : CallId) (value : Option V)
  | dropping (value : Option V)

namespace Holding

def isLasting : Holding V → Bool
  | condemned _ | uncounted _ | closing _ _ _ | dropping _ => false
  | _ => true

def hazard? : Holding V → Option Hazard
  | hazard h => some h
  | detached _ _ h _ => some h
  | _ => none

theorem filterMap_map_eq_nil {α β : Type} (f : α → Holding V) (p : Holding V → Option β)
    (h : ∀ a, p (f a) = none) (l : List α) : (l.map f).filterMap p = [] := by
  simp [List.filterMap_map, h]

theorem filterMap_map_append {α β : Type} (f : α → Holding V) (p : Holding V → Option β)
    (h : ∀ a, p (f a) = none) (l : List α) (hs : List (Holding V)) :
    (l.map f ++ hs).filterMap p = hs.filterMap p := by
  simp [List.filterMap_map, h]

/-- A scan only tells the records that it keeps from those that it dooms. -/
theorem filterMap_scan {β : Type} (p : Holding V → Option β) (hd : ∀ r, p (.doomed r) = none)
    (hu : ∀ r, p (.unbagged r) = none) (rs ds ls : List Retired) (hs : List (Holding V)) :
    (ds.map doomed ++ (ls.map unbagged ++ hs)).filterMap p =
      (rs.map unbagged ++ hs).filterMap p := by
  rw [filterMap_map_append doomed p hd, filterMap_map_append unbagged p hu,
    filterMap_map_append unbagged p hu]

end Holding

def Event.dropped? : Event V → Option V
  | .valueDropped v => some v
  | _ => none

def Frame.holdings : Frame V → List (Holding V)
  | .enqueue { queue, stage := .start, .. } => [.visit queue]
  | .enqueue { queue, stage := .link h a, current, .. } =>
    [.hazard h, .newNode a current, .visit queue]
  | .dequeue { queue, stage := .start, .. } => [.visit queue]
  | .dequeue { queue, stage := .round c h, .. } => [.hazard h, .call queue c, .visit queue]
  | .dequeue { queue, stage := .unlinked c h a, .. } => [.detached queue c h a, .visit queue]
  | .reclaim rest => rest.map .doomed
  | .dropChain queue next => [.cut queue next]
  | .abandonRest bag => bag.records.map .unbagged
  | _ => []

namespace World

def Lacks (w : World V) : Holding V → Prop
  | .visit name => ∀ q, w.queues.get? name = some q →
      ∃ a, (q.head = some a ∨ q.tail = some a) ∧ w.memory.nodes.get? a = none
  | .detached _ _ _ a => w.memory.nodes.get? a = none
  | .doomed r =>
    w.memory.objects.get? r.address = none ∧ w.memory.nodes.get? r.address = none
  | .cut _ (some a) => w.memory.nodes.get? a = none
  | _ => False

def IsRecord (w : World V) (a : Address) : Prop :=
  ∃ (name : Name) (e : RecordEntry), w.records.get? name = some e ∧ e.address = a

theorem isRecord_retire {w : World V} {n : Name} {e : RecordEntry} {a : Address}
    (he : w.records.get? n = some e) :
    IsRecord { w with records := w.records.insert n { e with retired := true } } a ↔
      w.IsRecord a := by
  constructor
  · rintro ⟨n', e', he', rfl⟩
    dsimp only at he'
    rw [Table.get?_insert] at he'
    split at he'
    · obtain rfl := Option.some.inj he'
      exact ⟨n, e, he, rfl⟩
    · exact ⟨n', e', he', rfl⟩
  · rintro ⟨n', e', he', rfl⟩
    by_cases hn : n' = n
    · subst hn
      obtain rfl := Option.some.inj (he.symm.trans he')
      exact ⟨n', _, Table.get?_insert_self .., rfl⟩
    · exact ⟨n', e', (Table.get?_insert_of_ne hn).trans he', rfl⟩

theorem isRecord_markGone {w : World V} {n : Name} {a : Address} :
    (w.markGone n).IsRecord a ↔ w.IsRecord a := by
  constructor
  · rintro ⟨n', e', he', rfl⟩
    replace he' := (Table.get?_modify ..).symm.trans he'
    split at he'
    · obtain ⟨e, he, rfl⟩ := Option.map_eq_some_iff.1 he'
      exact ⟨n', e, he, rfl⟩
    · exact ⟨n', e', he', rfl⟩
  · rintro ⟨n', e', he', rfl⟩
    by_cases hn : n' = n
    · refine ⟨n', { e' with gone := true }, (Table.get?_modify ..).trans ?_, rfl⟩
      rw [if_pos hn, he']
      rfl
    · refine ⟨n', e', (Table.get?_modify ..).trans ?_, rfl⟩
      rw [if_neg hn, he']

end World

/-- One change of the world and of what is held. `g` is the registry at the end of the step that
the effect is part of; only a `lossy` step may lose what was held. -/
inductive Effect (lossy : Prop) (g : Registry) :
    World V → List (Holding V) → World V → List (Holding V) → Prop where
  | reorder {w hs hs'} : hs.Perm hs' → Effect lossy g w hs w hs'
  /-- A hazard pointer is lost only if its record is not its own. -/
  | lose {w k hs} : lossy →
      (∀ h, k.hazard? = some h → w.domain.registry.isActive h.record = false) →
      Effect lossy g w (k :: hs) w hs
  | fault {w k hs hs'} : k ∈ hs → w.Lacks k → hs'.Sublist hs → Effect lossy g w hs w hs'
  | configure {w hs} (c : Option Config) :
      Effect lossy g w hs { w with domain := { w.domain with installed := c } } hs
  | storeCells {w hs} (cells : Table Name (Option Address)) :
      Effect lossy g w hs { w with cells } hs
  | setThread {w hs} (t : ThreadId) (th : Thread V) : th.presence = (w.thread t).presence →
      Effect lossy g w hs { w with threads := w.threads.insert t th } hs
  | note {w hs} (e : Event V) : e.isVisible = true → e.dropped? = none →
      Effect lossy g w hs (w.emit e) hs
  | createRecord {w hs} (name : Name) (acts : List (Act V)) : w.records.get? name = none →
      Effect lossy g w hs
        { w with
          memory := (w.memory.allocateObject ⟨name, acts⟩).2
          records := w.records.insert name { address := w.memory.fresh } } hs
  | createQueue {w hs} (name : Name) (strategy : WaitStrategy) : w.queues.get? name = none →
      Effect lossy g w hs
        (World.emit { w with
          memory := (w.memory.allocateNode {}).2
          queues := w.queues.insert name (Queue.create w.nextQueue w.memory.fresh strategy)
          nextQueue := w.nextQueue + 1 } (.nodeAllocated w.memory.fresh)) hs
  | condemn {w hs} (name : Name) (e : RecordEntry) (deleter : Deleter) :
      w.records.get? name = some e → e.retired = false →
      Effect lossy g w hs { w with records := w.records.insert name { e with retired := true } }
        (.condemned ⟨e.address, deleter⟩ :: hs)
  | spare {w r hs} : w.IsRecord r.address → Effect lossy g w (.condemned r :: hs) w hs
  | declare {w r hs} :
      Effect lossy g w (.condemned r :: hs) (w.emit (.retired r)) (.unbagged r :: hs)
  | settle {w hs} (t : ThreadId) (s : Site) : s.domain.registry = w.domain.registry →
      s.records.Perm (w.site t).records → Effect lossy g w hs (w.setSite t s) hs
  /-- A scan is the last thing that its step does with the registry. -/
  | scan {w hs} (rs ds ls : List Retired) (t : ThreadId) (s : Site) :
      s.domain.registry = w.domain.registry → w.domain.registry = g →
      (ds ++ (ls ++ s.records)).Perm (rs ++ (w.site t).records) →
      (∀ r ∈ ds, r.address ∉ w.domain.registry.protectedAddresses) →
      Effect lossy g w (rs.map .unbagged ++ hs) (w.setSite t s)
        (ds.map .doomed ++ (ls.map .unbagged ++ hs))
  | abandon {w hs} (b : Bag) :
      Effect lossy g w (b.records.map .unbagged ++ hs) (w.abandoning b) hs
  | acquire {w hs} (t : ThreadId) (i : RecordId) (s : Site) :
      Registry.Acquired w.domain.registry i s.domain.registry →
      s.records.Perm (w.site t).records →
      Effect lossy g w hs ((w.setSite t s).emit (.hazardCreated i)) (.hazard { record := i } :: hs)
  | publish {w h hs} (a : Option Address) :
      Effect lossy g w (.hazard h :: hs) (w.publish h a).2 (.hazard { h with target := a } :: hs)
  | republish {w h hs} (name : Name) (a : Option Address) : w.hazards.get? name = some h →
      Effect lossy g w hs
        { (w.publish h a).2 with hazards := w.hazards.insert name { h with target := a } } hs
  | giveName {w h hs} (name : Name) : w.hazards.get? name = none →
      Effect lossy g w (.hazard h :: hs) { w with hazards := w.hazards.insert name h } hs
  | takeName {w h hs} (name : Name) : w.hazards.get? name = some h →
      Effect lossy g w hs { w with hazards := w.hazards.erase name } (.hazard h :: hs)
  | release {w h hs} (registry : Registry) : w.domain.registry.release h.record = .ok registry →
      Effect lossy g w (.hazard h :: hs)
        ((w.mapRegistry fun _ => registry).emit (.hazardDropped h.record)) hs
  | enter {w hs} (name : Name) : (w.queues.get? name).isSome = true →
      Effect lossy g w hs w (.visit name :: hs)
  | depart {w name hs} : Effect lossy g w (.visit name :: hs) w hs
  | allocate {w hs} (p : Payload V) :
      Effect lossy g w hs
        (World.emit { w with memory := (w.memory.allocateNode { slot := .full p }).2 }
          (.nodeAllocated w.memory.fresh))
        (.newNode w.memory.fresh p :: hs)
  | link {w h a p hs} (name : Name) (q q' : Queue) (nodes : Nodes (Payload V)) :
      w.queues.get? name = some q → q.enqueueRound w.memory.nodes a = .linked q' nodes →
      (∀ k ∈ hs, k.isLasting = true) →
      Effect lossy g w (.hazard h :: .newNode a p :: .visit name :: hs)
        (((w.setQueue name q').setNodes nodes).emit (.linked q'.id a p.value))
        (.hazard h :: .uncounted name :: hs)
  | count {w name hs} :
      Effect lossy g w (.uncounted name :: hs)
        { w with queues := w.queues.modify name Queue.noteInserted } (.visit name :: hs)
  | setWaiter {w hs} (name : Name) (q : Queue) (waiter : Option Waiter) :
      w.queues.get? name = some q → Effect lossy g w hs (w.setQueue name { q with waiter }) hs
  | help {w hs} (name : Name) (q : Queue) (t next : Address) (last : Node (Payload V)) :
      w.queues.get? name = some q → q.tail = some t → w.memory.nodes.get? t = some last →
      last.next = some next → Effect lossy g w hs (w.setQueue name (q.advanceTail t next)) hs
  | begin {w hs} (name : Name) :
      Effect lossy g w hs { w with nextCall := w.nextCall + 1 } (.call name w.nextCall :: hs)
  | claimFront {w h c hs} (name : Name) (q q' : Queue) (p : Payload V)
      (nodes : Nodes (Payload V)) : w.queues.get? name = some q →
      q.dequeueRound w.memory.nodes = .claimed p q' nodes → (∀ k ∈ hs, k.isLasting = true) →
      Effect lossy g w (.hazard h :: .call name c :: hs)
        (((w.setQueue name q').setNodes nodes).emit (.removed q.id c (q.head.getD 0) p.value))
        (.hazard h :: .closing q'.id c (some p.value) :: hs)
  | findEmpty {w h c hs} (name : Name) (q : Queue) : w.queues.get? name = some q →
      q.dequeueRound w.memory.nodes = .empty →
      Effect lossy g w (.hazard h :: .call name c :: hs) w (.hazard h :: .closing q.id c none :: hs)
  | unlink {w h c hs} (name : Name) (q q' : Queue) (a : Address) : w.queues.get? name = some q →
      q.dequeueRound w.memory.nodes = .unlinked a q' → h.target = some a →
      (∀ k ∈ hs, k.isLasting = true) →
      Effect lossy g w (.hazard h :: .call name c :: hs)
        ((w.setQueue name q').noteUnlinked q.id c a)
        (.condemned ⟨a, .boxed⟩ :: .detached name c h a :: hs)
  | claimDetached {w h c a hs} (name : Name) (q q' : Queue) (p : Payload V)
      (nodes : Nodes (Payload V)) : w.queues.get? name = some q →
      q.claim w.memory.nodes a = .taken p q' nodes →
      Effect lossy g w (.detached name c h a :: hs) ((w.setQueue name q').setNodes nodes)
        (.hazard h :: .closing q'.id c (some p.value) :: hs)
  | missDetached {w h c a hs} (name : Name) (q : Queue) : w.queues.get? name = some q →
      q.claim w.memory.nodes a = .refused →
      Effect lossy g w (.detached name c h a :: hs) w (.hazard h :: .call name c :: hs)
  | giveUp {w name c h a hs} : lossy →
      Effect lossy g w (.detached name c h a :: hs) w (.hazard h :: hs)
  | finish {w i c v hs} :
      Effect lossy g w (.closing i c v :: hs) (w.emit (.returned i c v)) hs
  | destroyObject {w r hs} (o : Object V) : w.memory.objects.get? r.address = some o →
      Effect lossy g w (.doomed r :: hs)
        (World.emit (World.markGone { w with
          memory := { w.memory with objects := w.memory.objects.erase r.address } } o.name)
          (.reclaimed r)) hs
  | destroyNode {w r hs} (n : Node (Payload V)) : w.memory.objects.get? r.address = none →
      w.memory.nodes.get? r.address = some n →
      Effect lossy g w (.doomed r :: hs)
        ((w.setNodes (w.memory.nodes.erase r.address)).emit (.reclaimed r))
        (.dropping (n.slot.value?.map (·.value)) :: hs)
  | free {w i a hs} (n : Node (Payload V)) : w.memory.nodes.get? a = some n →
      Effect lossy g w (.cut i (some a) :: hs)
        ((w.setNodes (w.memory.nodes.erase a)).emit
          (.nodeFreed i a (n.slot.value?.map (·.value))))
        (.dropping (n.slot.value?.map (·.value)) :: .cut i n.next :: hs)
  | freed {w i hs} : Effect lossy g w (.cut i none :: hs) w hs
  | vacant {w hs} : Effect lossy g w (.dropping none :: hs) w hs
  | drop {w v hs} : Effect lossy g w (.dropping (some v) :: hs) (w.emit (.valueDropped v)) hs
  | discard {w} (name : Name) (q : Queue) : w.queues.get? name = some q →
      Effect lossy g w [] { w with queues := w.queues.erase name } [.cut q.id q.head]

inductive Effects (lossy : Prop) (g : Registry) :
    World V → List (Holding V) → World V → List (Holding V) → Prop where
  | refl {w hs} : Effects lossy g w hs w hs
  | cons {w hs w₁ hs₁ w₂ hs₂} : Effect lossy g w hs w₁ hs₁ → Effects lossy g w₁ hs₁ w₂ hs₂ →
      Effects lossy g w hs w₂ hs₂

namespace Effects
variable {lossy : Prop} {g : Registry} {w w₁ w₂ : World V} {hs hs₁ hs₂ : List (Holding V)}

theorem single (h : Effect lossy g w hs w₁ hs₁) : Effects lossy g w hs w₁ hs₁ :=
  .cons h .refl

theorem trans (h : Effects lossy g w hs w₁ hs₁) (h' : Effects lossy g w₁ hs₁ w₂ hs₂) :
    Effects lossy g w hs w₂ hs₂ := by
  induction h with
  | refl => exact h'
  | cons e _ ih => exact .cons e (ih h')

theorem snoc (h : Effects lossy g w hs w₁ hs₁) (e : Effect lossy g w₁ hs₁ w₂ hs₂) :
    Effects lossy g w hs w₂ hs₂ :=
  h.trans (single e)

theorem induct {P : World V → List (Holding V) → Prop}
    (step : ∀ w hs w' hs', Effect lossy g w hs w' hs' → P w hs → P w' hs')
    (h : Effects lossy g w hs w₁ hs₁) (hP : P w hs) : P w₁ hs₁ := by
  induction h with
  | refl => exact hP
  | cons e _ ih => exact ih (step _ _ _ _ e hP)

theorem loseAll (h : lossy) (ks : List (Holding V)) (hks : ks.filterMap Holding.hazard? = []) :
    Effects lossy g w (ks ++ hs) w hs := by
  induction ks with
  | nil => exact .refl
  | cons k ks ih =>
    cases hk : k.hazard? with
    | none =>
      rw [List.filterMap_cons_none hk] at hks
      exact .cons (.lose h (by simp [hk])) (ih hks)
    | some x =>
      rw [List.filterMap_cons_some hk] at hks
      cases hks

end Effects

namespace Run

def holdings (m : Run V) : List (Holding V) := m.stack.flatMap Frame.holdings

/-- The live hazard pointers: those with a name, and those of operations under way. -/
def hazards (m : Run V) : List Hazard :=
  m.world.hazards.values ++ m.holdings.filterMap Holding.hazard?

end Run

theorem Control.unwind_panics (p : Panic) : ¬ ∀ p', (unwind p : Control V) ≠ .unwind p' :=
  fun h => h p rfl

/-- What becomes of the world and of what an operation holds besides the frames that are suspended
below it. Only a step that ends in a panic may lose anything. -/
def World.Evolves (w : World V) (hs : List (Holding V)) (w' : World V) (fs : List (Frame V))
    (c : Control V) : Prop :=
  ∀ stack : List (Frame V), Effects (¬ ∀ p, c ≠ .unwind p) w'.domain.registry w
    (hs ++ stack.flatMap Frame.holdings) w' ((fs ++ stack).flatMap Frame.holdings)

end Reclaim
