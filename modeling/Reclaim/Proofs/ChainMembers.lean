import Reclaim.Proofs.Soundness

set_option autoImplicit false

namespace Reclaim
variable {V : Type}

structure Deposit (V : Type) where
  queue : QueueId
  node : Address
  value : V
  deriving DecidableEq

structure Member (V : Type) where
  queue : QueueId
  address : Address
  value : Option V
  deriving DecidableEq

def Member.deposit? (x : Member V) : Option (Deposit V) :=
  x.value.map fun v => ⟨x.queue, x.address, v⟩

def Queue.root (q : Queue) : QueueId × Option Address := (q.id, q.head)

def Holding.remnant? : Holding V → Option (QueueId × Option Address)
  | cut i s => some (i, s)
  | _ => none

namespace Nodes

def members (nodes : Nodes (Payload V)) (x : QueueId × Option Address) : List (Member V) :=
  (nodes.trail x.2).map fun a => ⟨x.1, a, (nodes.value? a).map (·.value)⟩

variable {nodes nodes' : Nodes (Payload V)} {i : QueueId} {s : Option Address} {a t : Address}
  {l : List Address} {n last : Node (Payload V)}

theorem members_congr (h : Path nodes s l) (hsame : ∀ a ∈ l, nodes'.get? a = nodes.get? a) :
    nodes'.members (i, s) = nodes.members (i, s) := by
  have h' : Path nodes' s l := h.congr fun a ha => by rw [hsame a ha]
  rw [members, members, h.trail_eq, h'.trail_eq]
  exact List.map_congr_left fun a ha => by rw [value?, value?, hsame a ha]

theorem members_none : nodes.members (i, none) = [] := by
  rw [members, (Path.nil : Path nodes none []).trail_eq]
  rfl

theorem members_cons (h : Path nodes (some a) l) (hn : nodes.get? a = some n) :
    nodes.members (i, some a) =
      ⟨i, a, n.slot.value?.map (·.value)⟩ :: nodes.members (i, n.next) := by
  rw [members, h.trail_cons hn, List.map_cons, value?, hn, Option.bind_some]
  rfl

/-- What follows a node does not miss it. -/
theorem members_erase (h : Path nodes (some a) l) (hn : nodes.get? a = some n) :
    members (nodes.erase a) (i, n.next) = nodes.members (i, n.next) := by
  have hnodup := h.trail.nodup
  rw [h.trail_cons hn] at hnodup
  refine members_congr (h.next hn) fun b hb => Table.get?_erase_of_ne ?_
  exact ne_of_mem_of_not_mem hb (List.nodup_cons.1 hnodup).1

theorem members_extend (h : Path nodes s (l ++ [t])) (hlast : nodes.get? t = some last)
    (ha : a ∉ l ++ [t]) (hn : nodes.get? a = some n) (hnext : n.next = none) :
    members (nodes.insert t { last with next := some a }) (i, s) =
      nodes.members (i, s) ++ [⟨i, a, n.slot.value?.map (·.value)⟩] := by
  have hnew : nodes.value? a = n.slot.value? := by rw [value?, hn, Option.bind_some]
  rw [members, members, (h.extend hlast ha hn hnext).trail_eq, h.trail_eq, List.append_cons,
    List.map_append, List.map_singleton, value?_setNext hlast, hnew]
  exact congrArg (· ++ _) (List.map_congr_left fun b _ => by rw [value?_setNext hlast])

end Nodes

namespace World

/-- The queues, and those that are being dropped, with the nodes where their chains begin. -/
def chains (w : World V) (hs : List (Holding V)) : List (QueueId × Option Address) :=
  w.queues.values.map Queue.root ++ hs.filterMap Holding.remnant?

def members (w : World V) (hs : List (Holding V)) : List (Member V) :=
  (w.chains hs).flatMap w.memory.nodes.members

variable {w w' : World V} {hs hs' : List (Holding V)} {x x' : QueueId × Option Address}
  {xs : List (QueueId × Option Address)}

theorem starts_eq (w : World V) (hs : List (Holding V)) :
    (w.census hs).starts = (w.chains hs).map (·.2) := by
  have hcut : hs.filterMap Holding.cut? = (hs.filterMap Holding.remnant?).map (·.2) := by
    rw [List.map_filterMap]
    exact List.filterMap_congr fun k _ => by cases k <;> rfl
  rw [chains, List.map_append, List.map_map, ← hcut]
  exact congrArg (· ++ _) (List.map_map ..)

theorem path_of_chains (h : (w.census hs).Valid) (hx : x ∈ w.chains hs) :
    Nodes.Path w.memory.nodes x.2 (w.memory.nodes.trail x.2) := by
  apply h.trail_path
  rw [starts_eq]
  exact List.mem_map_of_mem hx

theorem members_same (h : (w.census hs).Valid) (hp : (w'.chains hs').Perm (w.chains hs))
    (hsame : ∀ a ∈ (w.census hs).linked, w'.memory.nodes.get? a = w.memory.nodes.get? a) :
    (w'.members hs').Perm (w.members hs) := by
  have heach : (w.chains hs).flatMap w'.memory.nodes.members = w.members hs :=
    List.flatMap_congr fun x hx => Nodes.members_congr (path_of_chains h hx) fun a ha => by
      apply hsame a
      refine Census.mem_linked ?_ ha
      rw [starts_eq]
      exact List.mem_map_of_mem hx
  rw [← heach]
  exact hp.flatMap_right _

/-- One chain changes, and the others are left alone. -/
theorem members_replace (w' : World V) (hs' : List (Holding V)) (h : (w.census hs).Valid)
    (hp : (w.chains hs).Perm (x :: xs))
    (hp' : (w'.chains hs').Perm (x' :: xs))
    (hsame : ∀ a, a ∉ w.memory.nodes.trail x.2 → a ∈ (w.census hs).linked →
      w'.memory.nodes.get? a = w.memory.nodes.get? a) :
    (w.members hs).Perm (w.memory.nodes.members x ++ xs.flatMap w.memory.nodes.members) ∧
      (w'.members hs').Perm (w'.memory.nodes.members x' ++ xs.flatMap w.memory.nodes.members) := by
  have hlinked : (w.census hs).linked.Perm
      (w.memory.nodes.trail x.2 ++ xs.flatMap fun y => w.memory.nodes.trail y.2) := by
    rw [Census.linked, starts_eq, List.flatMap_map]
    exact hp.flatMap_right _
  have hnodup := (List.nodup_append.1 (List.nodup_append.1 h.spaced.distinct).1).1
  have hrest : xs.flatMap w'.memory.nodes.members = xs.flatMap w.memory.nodes.members := by
    refine List.flatMap_congr fun y hy => ?_
    refine Nodes.members_congr (path_of_chains h (hp.mem_iff.2 (List.mem_cons_of_mem _ hy)))
      fun a ha => ?_
    have hmem : a ∈ xs.flatMap fun y => w.memory.nodes.trail y.2 := List.mem_flatMap.2 ⟨y, hy, ha⟩
    refine hsame a (fun hax => ?_) (hlinked.mem_iff.2 (List.mem_append_right _ hmem))
    exact (List.nodup_append.1 (hlinked.nodup_iff.1 hnodup)).2.2 a hax a hmem rfl
  refine ⟨hp.flatMap_right _, ?_⟩
  rw [← hrest]
  exact hp'.flatMap_right _

section queue
variable {name : Name} {q q' : Queue} {nodes : Nodes (Payload V)}

def chainsBeside (w : World V) (name : Name) (hs : List (Holding V)) :
    List (QueueId × Option Address) :=
  (w.queues.erase name).values.map Queue.root ++ hs.filterMap Holding.remnant?

theorem chains_front (hq : w.queues.get? name = some q) (hs : List (Holding V)) :
    (w.chains hs).Perm (q.root :: w.chainsBeside name hs) :=
  ((Table.values_erase hq).map _).append_right _

theorem chains_insert (hqueues : w'.queues = w.queues.insert name q')
    (hcuts : hs'.filterMap Holding.remnant? = hs.filterMap Holding.remnant?) (hx : q'.root = x) :
    (w'.chains hs').Perm (x :: w.chainsBeside name hs) := by
  rw [chains, hqueues, hcuts, ← hx]
  exact ((Table.values_insert ..).map _).append_right _

theorem members_createQueue (w' : World V) (h : (w.census hs).Valid)
    (hname : w.queues.get? name = none)
    (hhead : q.head = some w.memory.fresh) (hqueues : w'.queues = w.queues.insert name q)
    (hnodes : w'.memory.nodes = w.memory.nodes.insert w.memory.fresh {}) :
    (w'.members hs).Perm (⟨q.id, w.memory.fresh, none⟩ :: w.members hs) := by
  have hself : w'.memory.nodes.get? w.memory.fresh = some {} := by
    rw [hnodes]
    exact Table.get?_insert_self ..
  have hchains : (w'.chains hs).Perm ((q.id, some w.memory.fresh) :: w.chains hs) := by
    rw [chains, hqueues, ← hhead]
    exact ((Table.values_insert_new hname q).map Queue.root).append_right _
  have hold : (w.chains hs).flatMap w'.memory.nodes.members = w.members hs := by
    refine List.flatMap_congr fun x hx => Nodes.members_congr (path_of_chains h hx) fun a ha => ?_
    rw [hnodes]
    refine Table.get?_insert_of_ne (h.ne_fresh_of_linked (Census.mem_linked ?_ ha))
    rw [starts_eq]
    exact List.mem_map_of_mem hx
  refine (hchains.flatMap_right _).trans (.of_eq ?_)
  rw [List.flatMap_cons, hold, Nodes.members_cons (.cons hself .nil) hself, Nodes.members_none]
  rfl

theorem members_link {a : Address} {p : Payload V} (h : (w.census hs).Valid)
    (hnode : .newNode a p ∈ hs) (hq : w.queues.get? name = some q)
    (hround : q.enqueueRound w.memory.nodes a = .linked q' nodes)
    (hqueues : w'.queues = w.queues.insert name q') (hnodes : w'.memory.nodes = nodes)
    (hcuts : hs'.filterMap Holding.remnant? = hs.filterMap Holding.remnant?) :
    (w'.members hs').Perm (⟨q'.id, a, some p.value⟩ :: w.members hs) := by
  obtain ⟨t, last, ht, hlast, -, rfl, rfl⟩ := Queue.enqueueRound_linked hround
  obtain ⟨l, t', ht', hpath⟩ := path_of_census h hq
  obtain rfl := Option.some.inj (ht.symm.trans ht')
  have hnews : (a, p) ∈ (w.census hs).news := List.mem_filterMap.2 ⟨_, hnode, rfl⟩
  have ha : a ∉ l ++ [t] := fun hmem => by
    rw [← hpath.trail_eq] at hmem
    exact h.not_mem_news (trail_subset_linked hq hs hmem) (List.mem_map_of_mem hnews)
  have hchains : (w'.chains hs').Perm ((q.id, q.head) :: w.chainsBeside name hs) :=
    chains_insert hqueues hcuts rfl
  obtain ⟨hold, hnew⟩ := members_replace w' hs' h (chains_front hq hs) hchains fun b hb _ => by
    rw [hnodes]
    refine Table.get?_insert_of_ne ?_
    rintro rfl
    exact hb (tail_mem_trail h hq ht)
  rw [hnodes, Nodes.members_extend hpath hlast ha (h.new (a, p) hnews) rfl] at hnew
  refine hnew.trans ((List.perm_append_singleton _ _).append_right _ |>.trans ?_)
  exact (hold.symm).cons _

/-- The only value of the queue is claimed where it waits. -/
theorem members_claimFront {p : Payload V} (w' : World V) (hs' : List (Holding V))
    (h : (w.census hs).Valid) (hq : w.queues.get? name = some q)
    (hround : q.dequeueRound w.memory.nodes = .claimed p q' nodes)
    (hqueues : w'.queues = w.queues.insert name q') (hnodes : w'.memory.nodes = nodes)
    (hcuts : hs'.filterMap Holding.remnant? = hs.filterMap Holding.remnant?) :
    ∃ rest, (w.members hs).Perm (⟨q.id, q.head.getD 0, some p.value⟩ :: rest) ∧
      (w'.members hs').Perm (⟨q.id, q.head.getD 0, none⟩ :: rest) := by
  obtain ⟨b, n, hb, ht, hn, hv, rfl, rfl⟩ := Queue.dequeueRound_claimed hround
  have hnext := tail_next h hq ht hn
  have hpath := trail_path h hq
  rw [hb] at hpath
  have hchains : (w'.chains hs').Perm ((q.id, q.head) :: w.chainsBeside name hs) :=
    chains_insert hqueues hcuts rfl
  obtain ⟨hold, hnew⟩ := members_replace w' hs' h (chains_front hq hs) hchains fun a ha _ => by
    rw [hnodes]
    refine Table.get?_insert_of_ne ?_
    rintro rfl
    exact ha (head_mem_trail h hq hb)
  have hself : (w.memory.nodes.insert b { n with slot := .vacant }).get? b =
      some { n with slot := .vacant } := Table.get?_insert_self ..
  rw [Queue.root, hb, Nodes.members_cons hpath hn, hv, hnext, Nodes.members_none] at hold
  rw [hnodes, hb, Nodes.members_cons (hpath.setSlot hn .vacant) hself, hnext,
    Nodes.members_none] at hnew
  rw [hb]
  exact ⟨_, hold, hnew⟩

theorem members_unlink {a : Address} {n : Node (Payload V)} (w' : World V)
    (hs' : List (Holding V)) (h : (w.census hs).Valid)
    (hq : w.queues.get? name = some q) (hn : w.memory.nodes.get? a = some n)
    (hround : q.dequeueRound w.memory.nodes = .unlinked a q')
    (hqueues : w'.queues = w.queues.insert name q') (hnodes : w'.memory.nodes = w.memory.nodes)
    (hcuts : hs'.filterMap Holding.remnant? = hs.filterMap Holding.remnant?) :
    (w.members hs).Perm (⟨q.id, a, n.slot.value?.map (·.value)⟩ :: w'.members hs') := by
  obtain ⟨n₁, next, hhead, -, hn₁, hnext, rfl⟩ := Queue.dequeueRound_unlinked hround
  obtain rfl := Option.some.inj (hn₁.symm.trans hn)
  have hpath := trail_path h hq
  rw [hhead] at hpath
  have hchains : (w'.chains hs').Perm ((q.id, some next) :: w.chainsBeside name hs) :=
    chains_insert hqueues hcuts rfl
  obtain ⟨hold, hnew⟩ := members_replace w' hs' h (chains_front hq hs) hchains
    fun _ _ _ => by rw [hnodes]
  rw [Queue.root, hhead, Nodes.members_cons hpath hn, hnext] at hold
  rw [hnodes] at hnew
  exact hold.trans (hnew.symm.cons _)

end queue

end World
end Reclaim
