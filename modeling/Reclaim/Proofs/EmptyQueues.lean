import Reclaim.Proofs.QueueOrder

set_option autoImplicit false

namespace Reclaim
variable {V : Type}

namespace Nodes
variable {nodes nodes' : Nodes V} {start : Option Address} {a t : Address} {l : List Address}
  {n last : Node V}

def IsPacked (nodes : Nodes V) (start : Option Address) : Prop :=
  (nodes.trail start).length ≤ (nodes.waiting start).length + 1

def IsFilled (nodes : Nodes V) (start : Option Address) : Prop :=
  ∀ b ∈ (nodes.trail start).tail, nodes.value? b ≠ none

theorem Path.trail_congr (h : Path nodes start l)
    (hsame : ∀ a ∈ l, nodes'.get? a = nodes.get? a) : nodes'.trail start = nodes.trail start := by
  have h' : Path nodes' start l := h.congr fun a ha => by rw [hsame a ha]
  rw [h.trail_eq, h'.trail_eq]

namespace IsFilled

theorem isPacked (hfilled : nodes.IsFilled start) : nodes.IsPacked start := by
  unfold IsFilled at hfilled
  unfold IsPacked waiting
  cases htrail : nodes.trail start with
  | nil => exact Nat.zero_le _
  | cons a l =>
    rw [htrail] at hfilled
    have hrest : (l.filterMap nodes.value?).length = l.length :=
      List.filterMap_length_eq_length.2 fun b hb => Option.isSome_iff_ne_none.2 (hfilled b hb)
    have hall := ((List.sublist_cons_self a l).filterMap nodes.value?).length_le
    rw [List.length_cons]
    omega

theorem congr (hfilled : nodes.IsFilled start) (h : Path nodes start l)
    (hsame : ∀ a ∈ l, nodes'.get? a = nodes.get? a) : nodes'.IsFilled start := by
  intro b hb
  rw [h.trail_congr hsame] at hb
  have hmem : b ∈ l := h.trail_eq ▸ List.mem_of_mem_tail hb
  rw [value?, hsame b hmem]
  exact hfilled b hb

theorem single (hn : nodes.get? a = some n) (hnext : n.next = none) :
    nodes.IsFilled (some a) := by
  have hpath : Path nodes (some a) [a] := .cons hn (hnext ▸ .nil)
  intro b hb
  rw [hpath.trail_eq] at hb
  exact absurd hb List.not_mem_nil

theorem next (hfilled : nodes.IsFilled (some a)) (h : Path nodes (some a) l)
    (hn : nodes.get? a = some n) : nodes.IsFilled n.next := by
  intro b hb
  apply hfilled
  rw [h.trail_cons hn]
  exact List.mem_of_mem_tail hb

theorem value_next (hfilled : nodes.IsFilled (some a)) (h : Path nodes (some a) l)
    (hn : nodes.get? a = some n) (hnext : n.next = some t) : nodes.value? t ≠ none := by
  apply hfilled
  rw [h.trail_cons hn]
  have hrest := h.next hn
  rw [hnext] at hrest ⊢
  generalize nodes.trail (some t) = l' at hrest
  cases hrest with
  | cons => exact List.mem_cons_self ..

theorem extend (hfilled : nodes.IsFilled start) (h : Path nodes start (l ++ [t]))
    (hlast : nodes.get? t = some last) (ha : a ∉ l ++ [t]) (hn : nodes.get? a = some n)
    (hnext : n.next = none) {v : V} (hv : n.slot.value? = some v) :
    IsFilled (nodes.insert t { last with next := some a }) start := by
  intro b hb
  rw [IsFilled, h.trail_eq] at hfilled
  rw [(h.extend hlast ha hn hnext).trail_eq, List.append_cons,
    List.tail_append_of_ne_nil (by simp)] at hb
  rw [value?_setNext hlast]
  rcases List.mem_append.1 hb with hb | hb
  · exact hfilled b hb
  · obtain rfl := List.mem_singleton.1 hb
    simp [value?, hn, hv]

end IsFilled
end Nodes

theorem Queue.dequeueRound_of_single {q : Queue} {nodes : Nodes V} {b : Address} {n : Node V}
    (hhead : q.head = some b) (htail : q.tail = some b) (hn : nodes.get? b = some n)
    (hv : n.slot.value? = none) (hnext : n.next = none) : q.dequeueRound nodes = .empty := by
  simp [dequeueRound, claim, hhead, htail, hn, hv, hnext]

namespace World

def Packed (w : World V) : Prop :=
  ∀ name q, w.queues.get? name = some q → w.memory.nodes.IsPacked q.head

def Filled (w : World V) : Prop :=
  ∀ name q, w.queues.get? name = some q → w.memory.nodes.IsFilled q.head

variable {w w' : World V} {hs : List (Holding V)} {name : Name} {q : Queue}

theorem filled_empty : ({} : World V).Filled := fun _ _ hq => by
  simp [Table.get?_empty] at hq

/-- What a change of the world does to the chain of the queue `name`: nothing, or the queue is new,
or a node is linked behind the last one, or an attempt claims the value of the only node, or the
first node is unlinked. -/
inductive Chained (w : World V) (hs : List (Holding V)) (name : Name) (w' : World V)
    (hs' : List (Holding V)) (q' : Queue) : Prop where
  | kept (q : Queue) : w.queues.get? name = some q → q'.id = q.id → q'.head = q.head →
      (∀ a ∈ w.memory.nodes.trail q.head, w'.memory.nodes.get? a = w.memory.nodes.get? a) →
      Chained w hs name w' hs' q'
  | created (a : Address) (n : Node (Payload V)) : q'.id = w.nextQueue → q'.head = some a →
      w'.memory.nodes.get? a = some n → n.next = none → Chained w hs name w' hs' q'
  | linked (q : Queue) (l : List Address) (t a : Address) (last : Node (Payload V))
      (p : Payload V) : w.queues.get? name = some q → q'.id = q.id → q'.head = q.head →
      w.memory.nodes.Path q.head (l ++ [t]) → w.memory.nodes.get? t = some last → a ∉ l ++ [t] →
      w.memory.nodes.get? a = some { slot := .full p } →
      w'.memory.nodes = w.memory.nodes.insert t { last with next := some a } →
      Chained w hs name w' hs' q'
  | claimed (q : Queue) (a : Address) (n : Node (Payload V)) (c : CallId) (v : V) (h : Hazard)
      (ks : List (Holding V)) : w.queues.get? name = some q → q'.id = q.id → q'.head = some a →
      w'.memory.nodes.get? a = some n → n.next = none → hs = .hazard h :: .call name c :: ks →
      hs' = .hazard h :: .closing q.id c (some v) :: ks →
      w'.history = .removed q.id c a v :: w.history → Chained w hs name w' hs' q'
  | unlinked (q : Queue) (a next : Address) (n : Node (Payload V)) :
      w.queues.get? name = some q → q'.id = q.id → q.head = some a →
      w.memory.nodes.get? a = some n → n.next = some next → q'.head = some next →
      w'.memory.nodes = w.memory.nodes → Chained w hs name w' hs' q'

/-- One queue changes, and the chains of the others are left alone. -/
theorem Chained.put {hs' : List (Holding V)} (q : Queue)
    (hqueues : w'.queues = w.queues.insert name q) (hnew : w.Chained hs name w' hs' q)
    (hothers : ∀ name₁ q₁, name₁ ≠ name → w.queues.get? name₁ = some q₁ →
      ∀ a ∈ w.memory.nodes.trail q₁.head, w'.memory.nodes.get? a = w.memory.nodes.get? a)
    {name₁ : Name} {q₁ : Queue} (h₁ : w'.queues.get? name₁ = some q₁) :
    w.Chained hs name₁ w' hs' q₁ := by
  rw [hqueues, Table.get?_insert] at h₁
  split at h₁
  · rename_i hname
    obtain rfl := Option.some.inj h₁
    exact hname ▸ hnew
  · rename_i hne
    exact .kept q₁ h₁ rfl rfl (hothers name₁ q₁ hne h₁)

end World

namespace Effect
variable {lossy : Prop} {g : Registry} {w w' : World V} {hs hs' : List (Holding V)}

theorem chained (e : Effect lossy g w hs w' hs') (hsound : w.Sound hs) {name₁ : Name} {q₁ : Queue}
    (h₁ : w'.queues.get? name₁ = some q₁) : w.Chained hs name₁ w' hs' q₁ := by
  have hvalid := hsound.census
  have hqueue {w' : World V} {hs' : List (Holding V)} {name : Name} {q q' : Queue}
      (hq : w.queues.get? name = some q) (hqueues : w'.queues = w.queues.insert name q')
      (hid : q'.id = q.id) (hhead : q'.head = q.head)
      (hsame : ∀ a ∈ (w.census hs).linked, w'.memory.nodes.get? a = w.memory.nodes.get? a)
      (h₁ : w'.queues.get? name₁ = some q₁) : w.Chained hs name₁ w' hs' q₁ := by
    obtain ⟨q₂, h₂, hid₂, hhead₂⟩ := World.exists_of_insert hq hid hhead (hqueues ▸ h₁)
    exact .kept q₂ h₂ hid₂ hhead₂ fun a ha => hsame a (World.trail_subset_linked h₂ hs ha)
  cases e with
  | createQueue name strategy hname =>
    refine .put _ rfl (.created _ _ rfl rfl (Table.get?_insert_self ..) rfl)
      (fun _ _ _ h₂ a ha => ?_) h₁
    exact Table.get?_insert_of_ne (hvalid.ne_fresh_of_linked (World.trail_subset_linked h₂ hs ha))
  | allocate p =>
    have hq : w.queues.get? name₁ = some q₁ := h₁
    exact .kept q₁ hq rfl rfl fun a ha => Table.get?_insert_of_ne
      (hvalid.ne_fresh_of_linked (World.trail_subset_linked hq hs ha))
  | @link h₀ a p hs name q q' nodes hq hround =>
    obtain ⟨t, last, ht, hlast, -, rfl, rfl⟩ := Queue.enqueueRound_linked hround
    obtain ⟨l, t', ht', hpath⟩ := World.path_of_census hvalid hq
    obtain rfl := Option.some.inj (ht.symm.trans ht')
    have hnews : (a, p) ∈ (w.census (.hazard h₀ :: .newNode a p :: .visit name :: hs)).news :=
      List.mem_cons_self ..
    have ha : a ∉ l ++ [t] := fun hmem => by
      rw [← hpath.trail_eq] at hmem
      exact hvalid.not_mem_news (World.trail_subset_linked hq _ hmem) (List.mem_map_of_mem hnews)
    have hn := hvalid.new (a, p) hnews
    refine .put { q with tail := some a } rfl
      (.linked q l t a last p hq rfl rfl hpath hlast ha hn rfl)
      (fun _ _ hne h₂ b hb => Table.get?_insert_of_ne ?_) h₁
    rintro rfl
    exact World.trail_disjoint hvalid hq h₂ hne (World.tail_mem_trail hvalid hq ht) hb
  | count =>
    change (w.queues.modify _ Queue.noteInserted).get? name₁ = some q₁ at h₁
    rw [Table.get?_modify] at h₁
    split at h₁
    · obtain ⟨q, hq, rfl⟩ := Option.map_eq_some_iff.1 h₁
      exact .kept q hq rfl rfl fun _ _ => rfl
    · exact .kept q₁ h₁ rfl rfl fun _ _ => rfl
  | setWaiter name q waiter hq => exact hqueue hq rfl rfl rfl (fun _ _ => rfl) h₁
  | help name q t next last hq ht hlast hnext =>
    simp [World.tail_next hvalid hq ht hlast] at hnext
  | claimFront name q q' p nodes hq hround =>
    obtain ⟨b, n, hb, ht, hn, -, rfl, rfl⟩ := Queue.dequeueRound_claimed hround
    have hnext := World.tail_next hvalid hq ht hn
    refine .put { q with removed := q.removed + 1 } rfl
      (.claimed q b { n with slot := .vacant } _ p.value _ _ hq rfl hb (Table.get?_insert_self ..)
        hnext rfl rfl (by rw [hb]; rfl))
      (fun _ _ hne h₂ a ha => Table.get?_insert_of_ne ?_) h₁
    rintro rfl
    exact World.trail_disjoint hvalid hq h₂ hne (World.head_mem_trail hvalid hq hb) ha
  | unlink name q q' a hq hround =>
    obtain ⟨n, next, hhead, -, hn, hnext, rfl⟩ := Queue.dequeueRound_unlinked hround
    rw [World.noteUnlinked_eq] at h₁ ⊢
    refine .put { q with head := some next } rfl ?_ ?_ h₁
    · exact .unlinked q a next n hq rfl hhead hn hnext rfl rfl
    · exact fun _ _ _ _ _ _ => rfl
  | claimDetached name q q' p nodes hq hclaim =>
    obtain ⟨n, hn, -, rfl, rfl⟩ := Queue.claim_taken hclaim
    refine hqueue hq rfl rfl rfl (fun b hb => Table.get?_insert_of_ne ?_) h₁
    rintro rfl
    exact hvalid.not_mem_loose hb (List.mem_cons_self ..)
  | @destroyNode r _ n ho hn =>
    have hq : w.queues.get? name₁ = some q₁ := h₁
    refine .kept q₁ hq rfl rfl fun a ha => Table.get?_erase_of_ne ?_
    rintro rfl
    refine hsound.not_linked ?_ (World.trail_subset_linked hq _ ha)
    have hretired := doomed_address_mem hsound.account (List.mem_cons_self ..)
    exact List.mem_append_right _ (List.mem_append_right _ hretired)
  | @free i a hs n hn =>
    refine .kept q₁ h₁ rfl rfl fun b hb => Table.get?_erase_of_ne ?_
    rintro rfl
    have hcut : some b ∈ (w.census (.cut i (some b) :: hs)).starts :=
      List.mem_append_right _ (List.mem_cons_self ..)
    exact World.trail_not_cut hvalid h₁ (List.mem_cons_self ..) hb (hvalid.start_mem_trail hcut)
  | discard name q hq =>
    change (w.queues.erase name).get? name₁ = some q₁ at h₁
    rw [Table.get?_erase] at h₁
    split at h₁
    · cases h₁
    · exact .kept q₁ h₁ rfl rfl fun _ _ => rfl
  | _ => exact .kept q₁ h₁ rfl rfl fun _ _ => rfl

theorem filled (e : Effect lossy g w hs w' hs') (hsound : w.Sound hs) (h : w.Filled) :
    w'.Filled := by
  intro name q' hq'
  cases e.chained hsound hq' with
  | kept q hq _ hhead hsame =>
    rw [hhead]
    exact (h name q hq).congr (World.trail_path hsound.census hq) hsame
  | created a n _ hhead hn hnext =>
    rw [hhead]
    exact .single hn hnext
  | linked q l t a last p hq _ hhead hpath hlast ha hn hnodes =>
    rw [hhead, hnodes]
    exact (h name q hq).extend hpath hlast ha hn rfl rfl
  | claimed q a n c v h₀ ks hq _ hhead hn hnext =>
    rw [hhead]
    exact .single hn hnext
  | unlinked q a next n hq _ ha hn hnext hhead hnodes =>
    have hpath := World.trail_path hsound.census hq
    have hfilled := h name q hq
    rw [ha] at hpath hfilled
    rw [hhead, hnodes, ← hnext]
    exact hfilled.next hpath hn

end Effect

namespace Run
variable {m : Run V}

theorem Reachable.filled (h : m.Reachable) : m.world.Filled := by
  have hall : m.world.Sound m.holdings ∧ m.world.Filled :=
    h.of_effects (P := fun w hs => w.Sound hs ∧ w.Filled)
      ⟨World.sound_empty, World.filled_empty⟩
      fun _ _ _ _ _ _ e h => ⟨e.sound h.1, e.filled h.1 h.2⟩
  exact hall.2

theorem Reachable.packed (h : m.Reachable) : m.world.Packed := fun name q hq =>
  (h.filled name q hq).isPacked

theorem Reachable.round_of_empty (h : m.Reachable) {name : Name} {q : Queue}
    (hq : m.world.queues.get? name = some q) (hempty : m.world.queued q = []) :
    q.dequeueRound m.world.memory.nodes = .empty := by
  have hpacked := h.packed name q hq
  obtain ⟨l, t, ht, hpath⟩ := World.path_of_census h.sound.census hq
  have hwaiting : m.world.memory.nodes.waiting q.head = [] := List.map_eq_nil_iff.1 hempty
  rw [Nodes.IsPacked, hpath.trail_eq, hwaiting] at hpacked
  obtain rfl : l = [] := by
    cases l with
    | nil => rfl
    | cons => simp at hpacked
  cases hhead : q.head with
  | none =>
    rw [hhead] at hpath
    cases hpath
  | some b =>
    rw [hhead] at hpath hwaiting
    rw [List.nil_append] at hpath
    cases hpath with
    | @cons _ n _ hn hrest =>
      rw [(Nodes.Path.cons hn hrest).waiting_cons hn] at hwaiting
      have hv : n.slot.value? = none := by
        cases hv : n.slot.value? with
        | none => rfl
        | some v => simp [hv] at hwaiting
      exact Queue.dequeueRound_of_single hhead ht hn hv hrest.eq_none

end Run
end Reclaim
