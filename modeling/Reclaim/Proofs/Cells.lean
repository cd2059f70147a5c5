import Reclaim.Proofs.Balance
import Reclaim.Proofs.Layout

set_option autoImplicit false

namespace Reclaim
variable {V : Type}

namespace Holding

def cut? : Holding V → Option (Option Address)
  | cut _ next => some next
  | _ => none

def newNode? : Holding V → Option (Address × Payload V)
  | newNode a p => some (a, p)
  | _ => none

def condemned? : Holding V → Option Address
  | condemned r => some r.address
  | _ => none

def doomed? : Holding V → Option Address
  | doomed r => some r.address
  | _ => none

def detached? : Holding V → Option (Hazard × Address)
  | detached _ _ h a => some (h, a)
  | _ => none

end Holding

namespace Holding

theorem mem_doomed {hs : List (Holding V)} {a : Address} :
    a ∈ hs.filterMap doomed? ↔ ∃ r, doomed r ∈ hs ∧ r.address = a := by
  rw [List.mem_filterMap]
  constructor
  · rintro ⟨k, hk, hka⟩
    cases k with
    | doomed r => exact ⟨r, hk, Option.some.inj hka⟩
    | _ => cases hka
  · rintro ⟨r, hr, rfl⟩
    exact ⟨_, hr, rfl⟩

def Guarded (hs : List (Holding V)) : Prop :=
  ∀ x ∈ hs.filterMap detached?, x.1.target = some x.2 ∧ x.2 ∉ hs.filterMap doomed?

theorem guarded_unbagged {rs : List Retired} {hs : List (Holding V)} :
    Guarded (rs.map .unbagged ++ hs) ↔ Guarded hs := by
  unfold Guarded
  rw [filterMap_map_append .unbagged detached? fun _ => rfl,
    filterMap_map_append .unbagged doomed? fun _ => rfl]

end Holding

def RecordEntry.unretired? (e : RecordEntry) : Option Address :=
  if e.retired then none else some e.address

def Queue.ends (q : Queue) : Option Address × Option Address := (q.head, q.tail)

namespace World

def unretired (w : World V) : List Address := w.records.values.filterMap RecordEntry.unretired?

def census (w : World V) (hs : List (Holding V)) : Census V where
  nodes := w.memory.nodes
  fresh := w.memory.fresh
  queues := w.queues.values.map Queue.ends
  cuts := hs.filterMap Holding.cut?
  news := hs.filterMap Holding.newNode?
  others := w.unretired ++ (hs.filterMap Holding.condemned? ++ w.retirements.map (·.address))
  loose := (hs.filterMap Holding.detached?).map (·.2)

theorem census_doomed (w : World V) (rs : List Retired) (hs : List (Holding V)) :
    w.census (rs.map .doomed ++ hs) = w.census hs := by
  unfold census
  repeat rw [Holding.filterMap_map_append .doomed _ fun _ => rfl]

theorem census_unbagged (w : World V) (rs : List Retired) (hs : List (Holding V)) :
    w.census (rs.map .unbagged ++ hs) = w.census hs := by
  unfold census
  repeat rw [Holding.filterMap_map_append .unbagged _ fun _ => rfl]

theorem queues_perm {w : World V} {name : Name} {q : Queue} (hq : w.queues.get? name = some q) :
    (w.queues.values.map Queue.ends).Perm
      (q.ends :: (w.queues.erase name).values.map Queue.ends) :=
  (Table.values_erase hq).map _

theorem queues_insert_perm (w : World V) (name : Name) (q : Queue) :
    ((w.queues.insert name q).values.map Queue.ends).Perm
      (q.ends :: (w.queues.erase name).values.map Queue.ends) :=
  (Table.values_insert w.queues name q).map _

theorem census_noteUnlinked (w : World V) (i : QueueId) (c : CallId) (a : Address)
    (hs : List (Holding V)) : (w.noteUnlinked i c a).census hs = w.census hs := by
  unfold noteUnlinked
  split <;> rfl

theorem path_of_census {w : World V} {hs : List (Holding V)} {name : Name} {q : Queue}
    (h : (w.census hs).Valid) (hq : w.queues.get? name = some q) :
    ∃ l t, q.tail = some t ∧ Nodes.Path w.memory.nodes q.head (l ++ [t]) := by
  have hmem : q.ends ∈ (w.census hs).queues := List.mem_map_of_mem (Table.mem_values.2 ⟨_, hq⟩)
  obtain ⟨t, ht, hlast⟩ := h.last q.ends hmem
  obtain ⟨l, hl⟩ := List.getLast?_eq_some_iff.1 hlast
  refine ⟨l, t, ht, ?_⟩
  rw [← hl]
  exact h.trail_path (List.mem_append_left _ (List.mem_map_of_mem hmem))

/-- The tail is the last node of the chain, so no operation finds anything to help with. -/
theorem tail_next {w : World V} {hs : List (Holding V)} {name : Name} {q : Queue} {t : Address}
    {last : Node (Payload V)} (h : (w.census hs).Valid) (hq : w.queues.get? name = some q)
    (ht : q.tail = some t) (hlast : w.memory.nodes.get? t = some last) : last.next = none := by
  obtain ⟨l, t', ht', hpath⟩ := path_of_census h hq
  obtain rfl := Option.some.inj (ht.symm.trans ht')
  exact hpath.next_getLast hlast

theorem queues_insert_same {w : World V} {name : Name} {q q' : Queue}
    (hq : w.queues.get? name = some q) (hends : q'.ends = q.ends) :
    ((w.queues.insert name q').values.map Queue.ends).Perm (w.queues.values.map Queue.ends) := by
  have hnew := w.queues_insert_perm name q'
  rw [hends] at hnew
  exact hnew.trans (queues_perm hq).symm

/-- The queue `name` comes first. -/
theorem census_front {w : World V} {hs : List (Holding V)} {name : Name} {q : Queue}
    (h : (w.census hs).Valid) (hq : w.queues.get? name = some q) :
    Census.Valid { w.census hs with
      queues := q.ends :: (w.queues.erase name).values.map Queue.ends } :=
  h.mono rfl rfl (queues_perm hq).symm.subperm (.refl _) (.refl _) (.refl _) (.refl _)

theorem trail_path {w : World V} {hs : List (Holding V)} {name : Name} {q : Queue}
    (h : (w.census hs).Valid) (hq : w.queues.get? name = some q) :
    Nodes.Path w.memory.nodes q.head (w.memory.nodes.trail q.head) := by
  obtain ⟨l, t, -, hpath⟩ := path_of_census h hq
  exact hpath.trail

theorem trail_disjoint {w : World V} {hs : List (Holding V)} {name name₁ : Name} {q q₁ : Queue}
    (h : (w.census hs).Valid) (hq : w.queues.get? name = some q)
    (hq₁ : w.queues.get? name₁ = some q₁) (hne : name₁ ≠ name) {a : Address}
    (ha : a ∈ w.memory.nodes.trail q.head) : a ∉ w.memory.nodes.trail q₁.head := by
  refine (census_front h hq).not_mem_trail rfl ha (List.mem_append_left _ ?_)
  have hmem : q₁ ∈ (w.queues.erase name).values :=
    Table.mem_values.2 ⟨name₁, (Table.get?_erase_of_ne hne).trans hq₁⟩
  rw [List.map_map]
  exact List.mem_map_of_mem (f := Prod.fst ∘ Queue.ends) hmem

theorem trail_not_cut {w : World V} {hs : List (Holding V)} {name : Name} {q : Queue}
    {i : QueueId} {s : Option Address} (h : (w.census hs).Valid)
    (hq : w.queues.get? name = some q) (hs : Holding.cut i s ∈ hs) {a : Address}
    (ha : a ∈ w.memory.nodes.trail q.head) : a ∉ w.memory.nodes.trail s :=
  (census_front h hq).not_mem_trail rfl ha
    (List.mem_append_right _ (List.mem_filterMap.2 ⟨_, hs, rfl⟩))

theorem trail_subset_linked {w : World V} {name : Name} {q : Queue}
    (hq : w.queues.get? name = some q) (hs : List (Holding V)) {a : Address}
    (ha : a ∈ w.memory.nodes.trail q.head) : a ∈ (w.census hs).linked := by
  have hmem : q.ends ∈ (w.census hs).queues := List.mem_map_of_mem (Table.mem_values.2 ⟨_, hq⟩)
  exact Census.mem_linked (List.mem_append_left _ (List.mem_map_of_mem hmem)) ha

theorem head_mem_trail {w : World V} {hs : List (Holding V)} {name : Name} {q : Queue}
    (h : (w.census hs).Valid) (hq : w.queues.get? name = some q) {a : Address}
    (ha : q.head = some a) : a ∈ w.memory.nodes.trail q.head := by
  have hmem : q.ends ∈ (w.census hs).queues := List.mem_map_of_mem (Table.mem_values.2 ⟨_, hq⟩)
  have hstart : q.head ∈ (w.census hs).starts :=
    List.mem_append_left _ (List.mem_map_of_mem hmem)
  rw [ha] at hstart ⊢
  exact h.start_mem_trail hstart

theorem tail_mem_trail {w : World V} {hs : List (Holding V)} {name : Name} {q : Queue}
    (h : (w.census hs).Valid) (hq : w.queues.get? name = some q) {t : Address}
    (ht : q.tail = some t) : t ∈ w.memory.nodes.trail q.head := by
  obtain ⟨l, t', ht', hpath⟩ := path_of_census h hq
  obtain rfl := Option.some.inj (ht.symm.trans ht')
  rw [hpath.trail_eq]
  exact List.mem_append_right _ (List.mem_singleton_self t)

theorem head_mem_linked {w : World V} {hs : List (Holding V)} {name : Name} {q : Queue}
    (h : (w.census hs).Valid) (hq : w.queues.get? name = some q) {a : Address}
    (ha : q.head = some a) : a ∈ (w.census hs).linked :=
  trail_subset_linked hq hs (head_mem_trail h hq ha)

theorem tail_mem_linked {w : World V} {hs : List (Holding V)} {name : Name} {q : Queue}
    (h : (w.census hs).Valid) (hq : w.queues.get? name = some q) {t : Address}
    (ht : q.tail = some t) : t ∈ (w.census hs).linked :=
  trail_subset_linked hq hs (tail_mem_trail h hq ht)

end World

namespace Effect
variable {lossy : Prop} {g : Registry} {w w' : World V} {hs hs' : List (Holding V)}

theorem doomed_mem_account {r : Retired} (hr : Holding.doomed r ∈ hs) : r ∈ w.account hs := by
  have hkept : r ∈ hs.filterMap Holding.kept? := List.mem_filterMap.2 ⟨_, hr, rfl⟩
  simp [World.account, hkept]

theorem doomed_address_mem (hacc : (w.account hs).Subperm w.retirements) {r : Retired}
    (hr : Holding.doomed r ∈ hs) : r.address ∈ w.retirements.map (·.address) :=
  List.mem_map_of_mem (hacc.subset (doomed_mem_account hr))

theorem census (e : Effect lossy g w hs w' hs') (hacc : (w.account hs).Subperm w.retirements)
    (hguard : Holding.Guarded hs) (h : (w.census hs).Valid) : (w'.census hs').Valid := by
  have hless {hs' : List (Holding V)} (hsub : hs'.Subperm hs) : (w.census hs').Valid := by
    obtain ⟨l, hp, hsub⟩ := hsub
    have hfilter {α : Type} (f : Holding V → Option α) :
        (hs'.filterMap f).Subperm (hs.filterMap f) := ⟨_, hp.filterMap f, hsub.filterMap f⟩
    exact h.mono rfl rfl (.refl _) (hfilter _) (hfilter _)
      ((List.Subperm.refl _).append ((hfilter _).append (.refl _)))
      (by obtain ⟨k, hk, hsub⟩ := hfilter Holding.detached?; exact ⟨_, hk.map _, hsub.map _⟩)
  cases e with
  | reorder hp => exact hless hp.symm.subperm
  | lose => exact hless (List.sublist_cons_self ..).subperm
  | fault _ _ hsub => exact hless hsub.subperm
  | note e he _ =>
    unfold World.census at h ⊢
    rw [World.retirements_note he]
    exact h
  | createRecord name acts hname =>
    refine h.reserve.mono rfl rfl (.refl _) (.refl _) (.refl _) ?_ (.refl _)
    have hnew := (Table.values_insert_new hname
      { address := w.memory.fresh }).filterMap RecordEntry.unretired?
    exact (hnew.append_right _).subperm
  | createQueue name strategy hname =>
    refine h.createQueue.mono rfl rfl ?_ (.refl _) (.refl _) (.refl _) (.refl _)
    exact ((Table.values_insert_new hname _).map Queue.ends).subperm
  | condemn name e deleter he hretired =>
    refine h.mono rfl rfl (.refl _) (.refl _) (.refl _) (List.Perm.subperm ?_) (.refl _)
    have hnew := (Table.values_insert w.records name
      { e with retired := true }).filterMap RecordEntry.unretired?
    have hold := (Table.values_erase he).filterMap RecordEntry.unretired?
    have he' : e.unretired? = some e.address := by simp [RecordEntry.unretired?, hretired]
    rw [List.filterMap_cons, he'] at hold
    refine (hnew.append_right _).trans (List.perm_middle.trans ?_)
    exact (hold.append_right _).symm
  | spare =>
    refine h.mono rfl rfl (.refl _) (.refl _) (.refl _) ?_ (.refl _)
    exact ((List.sublist_cons_self _ _).append_left _).subperm
  | declare =>
    refine h.mono rfl rfl (.refl _) (.refl _) (.refl _) ?_ (.refl _)
    exact (List.perm_middle.append_left _).subperm
  | scan rs ds ls t s =>
    rw [World.census_unbagged] at h
    rw [World.census_doomed, World.census_unbagged]
    exact h
  | abandon b =>
    rw [World.census_unbagged] at h
    exact h
  | allocate p => exact h.allocate p
  | link name q q' nodes hq hround hlasting =>
    obtain ⟨t, last, ht, hlast, hnext, rfl, rfl⟩ := Queue.enqueueRound_linked hround
    have hends : q.ends = (q.head, some t) := by rw [Queue.ends, ht]
    have hfront := World.census_front h hq
    rw [hends] at hfront
    refine (hfront.link rfl rfl hlast).mono rfl rfl ?_ (.refl _) (.refl _) (.refl _) (.refl _)
    exact (w.queues_insert_perm name _).subperm
  | count =>
    rename_i name hs
    refine h.mono rfl rfl (List.Perm.subperm ?_) (.refl _) (.refl _) (.refl _) (.refl _)
    have hperm := Table.filterMap_values_modify w.queues name (f := Queue.noteInserted)
      (g := fun q => some q.ends) fun _ => rfl
    rw [List.filterMap_eq_map'] at hperm
    exact hperm
  | setWaiter name q waiter hq =>
    refine h.mono rfl rfl (List.Perm.subperm ?_) (.refl _) (.refl _) (.refl _) (.refl _)
    exact World.queues_insert_same hq rfl
  | help name q t next last hq ht hlast hnext =>
    simp [World.tail_next h hq ht hlast] at hnext
  | claimFront name q q' p nodes hq hround =>
    obtain ⟨b, n, hb, -, hn, -, rfl, rfl⟩ := Queue.dequeueRound_claimed hround
    have hlinked := World.head_mem_linked h hq hb
    have hnew := h.not_mem_news hlinked
    refine (h.setSlot hn hnew .vacant).mono rfl rfl (List.Perm.subperm ?_) (.refl _) (.refl _)
      (.refl _) (.refl _)
    exact World.queues_insert_same hq rfl
  | unlink name q q' a hq hround htarget =>
    obtain ⟨n, next, hhead, htail, hn, hnext, rfl⟩ := Queue.dequeueRound_unlinked hround
    rw [World.census_noteUnlinked]
    have hends : q.ends = (some a, q.tail) := by rw [Queue.ends, hhead]
    have hfront := World.census_front h hq
    rw [hends] at hfront
    refine (hfront.unlink rfl hn hnext htail).mono rfl rfl ?_ (.refl _) (.refl _) ?_ (.refl _)
    · exact (w.queues_insert_perm name _).subperm
    · exact List.perm_middle.subperm
  | claimDetached name q q' p nodes hq hclaim =>
    obtain ⟨n, hn, -, rfl, rfl⟩ := Queue.claim_taken hclaim
    rename_i h' c a hs
    have hloose : a ∈ (w.census (.detached name c h' a :: hs)).loose := List.mem_cons_self ..
    have hnew : a ∉ (w.census (.detached name c h' a :: hs)).news.map (·.1) := fun hmem =>
      h.spaced.not_mem_loose (List.mem_append_right _ hmem) hloose
    refine (h.setSlot hn hnew .vacant).mono rfl rfl (List.Perm.subperm ?_) (.refl _) (.refl _)
      (.refl _) ?_
    · exact World.queues_insert_same hq rfl
    · exact (List.sublist_cons_self _ _).subperm
  | missDetached | giveUp =>
    refine h.mono rfl rfl (.refl _) (.refl _) (.refl _) (.refl _) ?_
    exact (List.sublist_cons_self _ _).subperm
  | destroyObject o ho =>
    refine h.mono rfl rfl (.refl _) (.refl _) (.refl _) (List.Perm.subperm ?_) (.refl _)
    have hgone (e : RecordEntry) :
        RecordEntry.unretired? { e with gone := true } = e.unretired? := rfl
    exact (Table.filterMap_values_modify w.records o.name hgone).append_right _
  | destroyNode n ho hn =>
    have hother := doomed_address_mem hacc (List.mem_cons_self ..)
    apply h.erase
    intro hmem
    rcases List.mem_append.1 hmem with hmem | hmem
    · exact h.spaced.not_mem_others hmem (List.mem_append_right _ (List.mem_append_right _ hother))
    · obtain ⟨x, hx, hxr⟩ := List.mem_map.1 hmem
      exact (hguard x hx).2 (hxr ▸ List.mem_cons_self ..)
  | free n hn => exact h.free rfl hn
  | freed =>
    refine h.mono rfl rfl (.refl _) ?_ (.refl _) (.refl _) (.refl _)
    exact (List.sublist_cons_self _ _).subperm
  | discard name q hq => exact (World.census_front h hq).discard rfl
  | configure | storeCells | setThread | settle | acquire | publish | republish | giveName
  | takeName | release | enter | depart | begin | findEmpty | finish | vacant | drop => exact h

end Effect
end Reclaim
