import Reclaim.Proofs.RecordedEvents
import Reclaim.Proofs.VacatedSlots

/-!
What a step leaves alone. Apart from the frames that end a thread or a queue, a step works at the
site of its own thread and on top of the suspended work: no thread begins or ends, no context is
destroyed, and no bag without a record is abandoned (`Run.Confined`).
-/

set_option autoImplicit false

namespace Reclaim
variable {V : Type}

def Frame.isFinal : Frame V → Bool
  | .leave | .finishExit _ | .dropChain _ _ => true
  | _ => false

def Presence.cached : Presence → List RecordId
  | .live c | .borrowed c => c.recordCache
  | .absent | .destroyed => []

def Presence.IsFree (p : Presence) : Prop := ∀ c, p ≠ .borrowed c

/-- No context is destroyed or kept borrowed, what was abandoned meanwhile has records, and the
record cache does not grow beyond its size. -/
structure Site.Confined (s s' : Site) : Prop where
  destroyed : s'.presence = .destroyed ↔ s.presence = .destroyed
  entered : s'.presence = .absent → s.presence = .absent
  free : s.presence.IsFree → s'.presence.IsFree
  cached : s.presence.cached.length ≤ Context.maxCached →
    s'.presence.cached.length ≤ Context.maxCached
  abandoned : ∀ b ∈ s'.domain.abandoned.bags,
    b ∈ s.domain.abandoned.bags ∨ b.isEmpty = false

namespace Site.Confined
variable {s s₁ s' : Site}

theorem refl (s : Site) : s.Confined s := ⟨.rfl, id, id, id, fun _ => .inl⟩

theorem trans (h : s.Confined s₁) (h' : s₁.Confined s') : s.Confined s' where
  destroyed := h'.destroyed.trans h.destroyed
  entered := h.entered ∘ h'.entered
  free := h'.free ∘ h.free
  cached := h'.cached ∘ h.cached
  abandoned b hb := (h'.abandoned b hb).elim (h.abandoned b) .inr

/-- A live context changes, and what was abandoned is taken in or stays. -/
theorem of_live {c c' : Context} (hs : s.presence = .live c) (hs' : s'.presence = .live c')
    (hcache : c.recordCache.length ≤ Context.maxCached → c'.recordCache.length ≤ Context.maxCached)
    (hbags : s'.domain.abandoned.bags ⊆ s.domain.abandoned.bags) : s.Confined s' := by
  refine ⟨?_, fun h => Presence.noConfusion (hs'.symm.trans h),
    fun _ _ h => Presence.noConfusion (hs'.symm.trans h), ?_, fun b hb => .inl (hbags hb)⟩
  · rw [hs, hs']
    exact ⟨fun h => Presence.noConfusion h, fun h => Presence.noConfusion h⟩
  · rw [hs, hs']
    exact hcache

end Site.Confined

namespace Context

theorem bags_adopt (c : Context) (d : Domain) : (c.adopt d).2.abandoned.bags = [] := by
  rw [adopt_eq]

theorem bags_retire (c : Context) (d : Domain) (r : Retired) :
    (c.retire d r).2.2.abandoned.bags = [] := by
  have hbags := bags_adopt { c with bag := c.bag.push r } d
  simp only [retire]
  split <;> exact hbags

theorem bags_flush (c : Context) (d : Domain) : (c.flush d).2.2.abandoned.bags = [] := by
  have hbags := c.bags_adopt d
  simp only [flush]
  split <;> exact hbags

/-- A new context takes in what was abandoned and remembers no record. -/
theorem create_new {d d' : Domain} {c : Context} (h : create d = .ok (c, d')) :
    c.recordCache = [] ∧ d'.abandoned.bags = [] := by
  have hempty := d.abandoned_adopt
  unfold create at h
  split at h
  · rename_i hadopt
    obtain ⟨rfl, rfl⟩ := Prod.mk.inj (Except.ok.inj h)
    rw [hadopt] at hempty
    exact ⟨rfl, congrArg (·.bags) hempty⟩
  · rename_i hadopt
    obtain ⟨bag, -, heq⟩ := ok_of_bind_ok h
    obtain ⟨rfl, rfl⟩ := Prod.mk.inj (Except.ok.inj heq)
    rw [hadopt] at hempty
    exact ⟨rfl, congrArg (·.bags) hempty⟩

theorem recordCache_adopt (c : Context) (d : Domain) :
    (c.adopt d).1.recordCache = c.recordCache := by
  rw [adopt_eq]

theorem recordCache_retire (c : Context) (d : Domain) (r : Retired) :
    (c.retire d r).2.1.recordCache = c.recordCache := by
  have hcache := recordCache_adopt { c with bag := c.bag.push r } d
  simp only [retire]
  split <;> exact hcache

theorem recordCache_flush (c : Context) (d : Domain) :
    (c.flush d).2.1.recordCache = c.recordCache := by
  have hcache := c.recordCache_adopt d
  simp only [flush]
  split <;> exact hcache

/-- A full cache forgets the record. -/
theorem length_cacheRecord_le {c : Context} (h : c.recordCache.length ≤ maxCached) (i : RecordId) :
    (c.cacheRecord i).recordCache.length ≤ maxCached := by
  unfold cacheRecord
  split
  · rename_i hroom
    exact Nat.succ_le_of_lt hroom
  · exact h

end Context

namespace Site
variable {s s' : Site}

theorem enter_confined (h : s.enter = .ok s') : s.Confined s' := by
  unfold enter at h
  split at h
  · rename_i hp
    obtain ⟨⟨c, d⟩, hc, heq⟩ := ok_of_bind_ok h
    obtain rfl := Except.ok.inj heq
    obtain ⟨hcache, hbags⟩ := Context.create_new hc
    refine ⟨?_, fun h => Presence.noConfusion h, fun _ _ h => Presence.noConfusion h,
      fun _ => ?_, fun b hb => ?_⟩
    · rw [hp]
      exact ⟨fun h => Presence.noConfusion h, fun h => Presence.noConfusion h⟩
    · rw [Presence.cached, hcache]
      exact Nat.zero_le _
    · rw [hbags] at hb
      exact absurd hb List.not_mem_nil
  · obtain rfl := Except.ok.inj h
    exact .refl s

theorem acquireRecord_confined {i : RecordId} (h : s.acquireRecord = .ok (i, s')) :
    s.Confined s' := by
  obtain ⟨s₁, hs₁, h⟩ := ok_of_bind_ok h
  refine (enter_confined hs₁).trans ?_
  dsimp only at h
  split at h
  · rename_i c s₂ hborrow
    obtain ⟨hp, rfl⟩ := borrow_eq_some hborrow
    have hsuffix := s₁.domain.registry.takeCached_suffix c.recordCache
    split at h <;> rename_i htake <;> rw [htake] at hsuffix <;>
      obtain ⟨-, rfl⟩ := Prod.mk.inj (Except.ok.inj h) <;>
      exact .of_live hp rfl (Nat.le_trans hsuffix.length_le) (List.Subset.refl _)
  · obtain ⟨-, rfl⟩ := Prod.mk.inj (Except.ok.inj h)
    exact ⟨.rfl, id, id, id, fun _ => .inl⟩

theorem cacheRecord_confined {i : RecordId} (h : s.cacheRecord i = .ok s') : s.Confined s' := by
  obtain ⟨s₁, hs₁, h⟩ := ok_of_bind_ok h
  refine (enter_confined hs₁).trans ?_
  split at h
  · rename_i c s₂ hborrow
    obtain ⟨hp, rfl⟩ := borrow_eq_some hborrow
    obtain rfl := Except.ok.inj h
    exact .of_live hp rfl (Context.length_cacheRecord_le · i) (List.Subset.refl _)
  · obtain rfl := Except.ok.inj h
    exact .refl _

theorem retiredCount_confined {n : Nat} (h : s.retiredCount = .ok (n, s')) : s.Confined s' := by
  obtain ⟨s₁, hs₁, h⟩ := ok_of_bind_ok h
  split at h
  · rename_i c s₂ hborrow
    obtain ⟨-, rfl⟩ := Prod.mk.inj (Except.ok.inj h)
    rw [giveBack_of_borrow hborrow]
    exact enter_confined hs₁
  · obtain ⟨-, rfl⟩ := Prod.mk.inj (Except.ok.inj h)
    exact enter_confined hs₁

theorem retire_confined {r : Retired} {rs : List Retired} (h : s.retire r = .ok (rs, s')) :
    s.Confined s' := by
  obtain ⟨s₁, hs₁, h⟩ := ok_of_bind_ok h
  refine (enter_confined hs₁).trans ?_
  dsimp only at h
  split at h
  · rename_i c s₂ hborrow
    obtain ⟨hp, rfl⟩ := borrow_eq_some hborrow
    obtain ⟨-, rfl⟩ := Prod.mk.inj (Except.ok.inj h)
    refine .of_live hp rfl ?_ ?_
    · rw [c.recordCache_retire s₁.domain r]
      exact id
    · change (c.retire s₁.domain r).2.2.abandoned.bags ⊆ _
      rw [c.bags_retire s₁.domain r]
      exact List.nil_subset _
  · obtain ⟨d, hd, heq⟩ := ok_of_bind_ok h
    obtain ⟨-, rfl⟩ := Prod.mk.inj (Except.ok.inj heq)
    obtain ⟨rfl, -⟩ := Domain.records_of_abandon hd
    refine ⟨.rfl, id, id, id, fun b hb => ?_⟩
    rcases List.mem_cons.1 hb with rfl | hb
    · exact .inr rfl
    · exact .inl hb

theorem flush_confined {rs : List Retired} (h : s.flush = .ok (rs, s')) : s.Confined s' := by
  obtain ⟨s₁, hs₁, h⟩ := ok_of_bind_ok h
  refine (enter_confined hs₁).trans ?_
  dsimp only at h
  split at h
  · rename_i c s₂ hborrow
    obtain ⟨hp, rfl⟩ := borrow_eq_some hborrow
    obtain ⟨-, rfl⟩ := Prod.mk.inj (Except.ok.inj h)
    refine .of_live hp rfl ?_ ?_
    · rw [c.recordCache_flush s₁.domain]
      exact id
    · change (c.flush s₁.domain).2.2.abandoned.bags ⊆ _
      rw [c.bags_flush s₁.domain]
      exact List.nil_subset _
  · obtain ⟨-, rfl⟩ := Prod.mk.inj (Except.ok.inj h)
    exact .refl _

end Site

/-- What the thread does to the world concerns itself: the other threads are as they were, no thread
begins its end or comes to it, no queue goes, and no node is freed with its queue. -/
structure World.Confined (w : World V) (t : ThreadId) (w' : World V) : Prop where
  phases : ∀ t', (w'.thread t').phase = (w.thread t').phase
  others : ∀ t', t' ≠ t → (w'.thread t').presence = (w.thread t').presence
  site : (w.site t).Confined (w'.site t)
  ids : ∀ name i, w.queueId? name = some i → w'.queueId? name = some i
  freed : w'.freed = w.freed

theorem World.freed_retired (w : World V) (rs : List Retired) :
    World.freed { w with history := (rs.map Event.retired).reverse ++ w.history } = w.freed := by
  rw [← foldl_emit]
  induction rs generalizing w with
  | nil => rfl
  | cons r rs ih => exact ih (w.emit (.retired r))

namespace World.Confined
variable {w w₁ w' : World V} {t : ThreadId}

theorem refl (w : World V) (t : ThreadId) : w.Confined t w :=
  ⟨fun _ => rfl, fun _ _ => rfl, .refl _, fun _ _ => id, rfl⟩

theorem trans (h : w.Confined t w₁) (h' : w₁.Confined t w') : w.Confined t w' where
  phases t' := (h'.phases t').trans (h.phases t')
  others t' ht' := (h'.others t' ht').trans (h.others t' ht')
  site := h.site.trans h'.site
  ids name i hi := h'.ids name i (h.ids name i hi)
  freed := h'.freed.trans h.freed

theorem after (h : w₁.Confined t w') (hbefore : w.Confined t w₁) : w.Confined t w' :=
  hbefore.trans h

/-- A change beside threads and abandoned bags. -/
theorem change (hthreads : w'.threads = w.threads)
    (habandoned : w'.domain.abandoned = w.domain.abandoned) (hfreed : w'.freed = w.freed)
    (hids : ∀ name i, w.queueId? name = some i → w'.queueId? name = some i) :
    w.Confined t w' := by
  have hthread (t' : ThreadId) : w'.thread t' = w.thread t' := by
    rw [World.thread, hthreads]
    rfl
  refine ⟨fun t' => by rw [hthread], fun t' _ => by rw [hthread], ⟨?_, ?_, ?_, ?_, ?_⟩, hids,
    hfreed⟩
  · change (w'.thread t).presence = .destroyed ↔ _
    rw [hthread]
    exact .rfl
  · intro h
    change (w'.thread t).presence = .absent at h
    rwa [hthread] at h
  · change _ → (w'.thread t).presence.IsFree
    rw [hthread]
    exact id
  · change _ → (w'.thread t).presence.cached.length ≤ _
    rw [hthread]
    exact id
  · intro b hb
    exact .inl (habandoned ▸ hb)

theorem still (hthreads : w'.threads = w.threads)
    (habandoned : w'.domain.abandoned = w.domain.abandoned) (hfreed : w'.freed = w.freed)
    (hqueues : w'.queues = w.queues) : w.Confined t w' :=
  change hthreads habandoned hfreed fun name i hi => by
    rwa [World.queueId?, hqueues]

theorem setQueue {name : Name} {q : Queue} (hqueues : w'.queues = w.queues.insert name q)
    (hq : w.queueId? name = some q.id) (hthreads : w'.threads = w.threads)
    (habandoned : w'.domain.abandoned = w.domain.abandoned) (hfreed : w'.freed = w.freed) :
    w.Confined t w' := by
  refine change hthreads habandoned hfreed fun name₁ i hi => ?_
  rw [World.queueId?, hqueues, Table.get?_insert]
  split
  · rename_i hname
    rw [hname, hq] at hi
    exact hi
  · exact hi

theorem atSite {s : Site} (hs : (w.site t).Confined s)
    (hthreads : w'.threads = (w.setSite t s).threads)
    (habandoned : w'.domain.abandoned = s.domain.abandoned) (hfreed : w'.freed = w.freed)
    (hqueues : w'.queues = w.queues) : w.Confined t w' := by
  have hthread (t' : ThreadId) : w'.thread t' =
      if t' = t then { w.thread t with presence := s.presence } else w.thread t' := by
    rw [← w.thread_setSite t s t', World.thread, hthreads]
    rfl
  refine ⟨fun t' => ?_, fun t' ht' => by rw [hthread, if_neg ht'], ⟨?_, ?_, ?_, ?_, ?_⟩,
    fun name i hi => by rwa [World.queueId?, hqueues], hfreed⟩
  · rw [hthread]
    split
    · rename_i ht'
      rw [ht']
    · rfl
  · change (w'.thread t).presence = .destroyed ↔ _
    rw [hthread, if_pos rfl]
    exact hs.destroyed
  · intro h
    change (w'.thread t).presence = .absent at h
    rw [hthread, if_pos rfl] at h
    exact hs.entered h
  · change _ → (w'.thread t).presence.IsFree
    rw [hthread, if_pos rfl]
    exact hs.free
  · change _ → (w'.thread t).presence.cached.length ≤ _
    rw [hthread, if_pos rfl]
    exact hs.cached
  · intro b hb
    exact hs.abandoned b (habandoned ▸ hb)

theorem dropHazard {h : Hazard} {r : Option Panic} (e : w.dropHazard t h = (r, w')) :
    w.Confined t w' := by
  cases World.dropHazard_drops e with
  | refused => exact .refl w t
  | forgotten => exact .still rfl rfl rfl rfl
  | cached registry s _ hs =>
    have hreleased : w.Confined t (w.released h registry) := .still rfl rfl rfl rfl
    exact hreleased.trans (.atSite (Site.cacheRecord_confined hs) rfl rfl rfl rfl)

theorem createHazard {h : Hazard} (e : w.createHazard t = .ok (h, w')) : w.Confined t w' := by
  obtain ⟨i, s, hs, -, rfl⟩ := World.createHazard_eq e
  exact .atSite (Site.acquireRecord_confined hs) rfl rfl rfl rfl

theorem abandoning {b : Bag} (hb : b.isEmpty = false) : w.Confined t (w.abandoning b) := by
  refine ⟨fun _ => rfl, fun _ _ => rfl, ⟨.rfl, id, id, id, fun b' hb' => ?_⟩, fun _ _ => id,
    rfl⟩
  rcases List.mem_cons.1 hb' with rfl | hb'
  · exact .inr hb
  · exact .inl hb'

theorem retiring (w : World V) (t : ThreadId) (rs : List Retired) :
    w.Confined t (rs.foldl (fun w r => w.emit (.retired r)) w) := by
  have hfreed := w.freed_retired rs
  rw [World.foldl_emit]
  exact .still rfl rfl hfreed rfl

theorem noteUnlinked (w : World V) (t : ThreadId) (i : QueueId) (c : CallId) (a : Address) :
    w.Confined t (w.noteUnlinked i c a) := by
  unfold World.noteUnlinked
  split <;> exact .still rfl rfl rfl rfl

end World.Confined

section transitions
variable {t : ThreadId} {w w' : World V} {fs : List (Frame V)} {c : Control V}

theorem Performs.confined {op : Op V} (h : Performs t w op w' fs c) :
    w.Confined t w' ∧ fs.any Frame.isFinal = false := by
  cases h with
  | answers | panics | strays | overflows | startsEnqueue | startsDequeue =>
    exact ⟨.refl w t, rfl⟩
  | installs | creates | stores | publishes => exact ⟨.still rfl rfl rfl rfl, rfl⟩
  | counts n s hs => exact ⟨.atSite (Site.retiredCount_confined hs) rfl rfl rfl rfl, rfl⟩
  | flushes rs s hs => exact ⟨.atSite (Site.flush_confined hs) rfl rfl rfl rfl, rfl⟩
  | retireOverflows a w₁ p hmark =>
    obtain ⟨e, -, -, -, rfl⟩ := World.markRetired_spec hmark
    exact ⟨.still rfl rfl rfl rfl, rfl⟩
  | retires a w₁ rs s hmark hs =>
    obtain ⟨e, -, -, -, rfl⟩ := World.markRetired_spec hmark
    exact ⟨.atSite (Site.retire_confined hs) rfl rfl rfl rfl, rfl⟩
  | abandonRefused r w₁ hmark =>
    obtain ⟨records, rfl⟩ := World.records_markAllRetired hmark
    exact ⟨.still rfl rfl rfl rfl, rfl⟩
  | abandonFails as w₁ p hmark =>
    obtain ⟨records, rfl⟩ := World.records_markAllRetired hmark
    exact ⟨.still rfl rfl rfl rfl, rfl⟩
  | abandons as w₁ b hmark _ hb =>
    obtain ⟨records, rfl⟩ := World.records_markAllRetired hmark
    have hmarked : w.Confined t { w with records } := .still rfl rfl rfl rfl
    exact ⟨(hmarked.trans (.abandoning hb)).trans (.retiring _ t b.records), rfl⟩
  | holds h h' w₁ w₂ _ hcreate hpublish =>
    have hcreated : w.Confined t w₁ := .createHazard hcreate
    rcases hpublish with hnot | ⟨a, hpublish⟩
    · obtain ⟨rfl, rfl⟩ := Prod.mk.inj hnot
      exact ⟨hcreated.trans (.still rfl rfl rfl rfl), rfl⟩
    · obtain ⟨rfl, rfl⟩ := Prod.mk.inj hpublish
      exact ⟨hcreated.trans (.still rfl rfl rfl rfl), rfl⟩
  | tries h w₁ w₂ a hcreate hdrop =>
    exact ⟨(World.Confined.createHazard hcreate).trans (.dropHazard hdrop), rfl⟩
  | drops hazard h w₁ _ hdrop | dropFails hazard h p w₁ _ hdrop =>
    exact ⟨(World.Confined.dropHazard hdrop).after (.still rfl rfl rfl rfl), rfl⟩
  | createsQueue name strategy hname =>
    refine ⟨.change rfl rfl rfl fun name' i hi => ?_, rfl⟩
    obtain ⟨q, hq, rfl⟩ := Option.map_eq_some_iff.1 hi
    refine World.queueId?_of_get? ((Table.get?_insert_of_ne ?_).trans hq)
    rintro rfl
    rw [hname] at hq
    cases hq
  | startsWaiting name q waiter goal hq =>
    have hid := World.queueId?_of_get? hq
    exact ⟨.setQueue rfl hid rfl rfl rfl, rfl⟩

theorem Empties.confined {s : Slot (Payload V)} (h : Empties w s w' fs) :
    w.Confined t w' ∧ fs.any Frame.isFinal = false := by
  cases h <;> exact ⟨.still rfl rfl rfl rfl, rfl⟩

theorem Reclaims.confined {rs : List Retired} (h : Reclaims w rs w' fs c) :
    w.Confined t w' ∧ fs.any Frame.isFinal = false := by
  cases h with
  | finished | strays => exact ⟨.refl w t, rfl⟩
  | object r rest o w₁ _ htells => cases htells <;> exact ⟨.still rfl rfl rfl rfl, rfl⟩
  | node r rest n w₁ fs _ _ hempties =>
    obtain ⟨hemptied, hplain⟩ := hempties.confined (t := t)
    rw [List.any_append, hplain]
    exact ⟨hemptied.after (.still rfl rfl rfl rfl), rfl⟩

theorem Supplies.plain {queue : Name} {rest : Supply V} {reply : Answer V}
    (h : Supplies queue rest reply fs c) : fs.any Frame.isFinal = false := by
  cases h <;> rfl

theorem Enqueues.confined {e : EnqueueFrame V} (h : Enqueues t w e w' fs c) :
    w.Confined t w' ∧ fs.any Frame.isFinal = false := by
  cases h with
  | lost => exact ⟨.refl w t, rfl⟩
  | overflows | strays | fails => exact ⟨.still rfl rfl rfl rfl, rfl⟩
  | allocates h w₁ _ hcreate =>
    exact ⟨(World.Confined.createHazard hcreate).after (.still rfl rfl rfl rfl), rfl⟩
  | helps h a q q' _ hq hround =>
    obtain ⟨t, last, next, -, -, -, rfl⟩ := Queue.enqueueRound_helped hround
    have hid := (World.queueId?_of_get? hq).trans
      (congrArg some (q.counts_advanceTail t next).1.symm)
    exact ⟨.setQueue rfl hid rfl rfl rfl, rfl⟩
  | breaks h a q q' nodes p w₁ _ hq hround hdrop =>
    obtain ⟨t, last, -, -, -, rfl, rfl⟩ := Queue.enqueueRound_linked hround
    have hid := World.queueId?_of_get? hq
    exact ⟨(World.Confined.dropHazard hdrop).after (.setQueue rfl hid rfl rfl rfl), rfl⟩
  | links h a q q' nodes w₁ _ _ _ hq hround hdrop hsupplies =>
    obtain ⟨t, last, -, -, -, rfl, rfl⟩ := Queue.enqueueRound_linked hround
    have hid := World.queueId?_of_get? hq
    have hdropped : w.Confined _ w₁ :=
      (World.Confined.dropHazard hdrop).after (.setQueue rfl hid rfl rfl rfl)
    refine ⟨hdropped.trans ?_, hsupplies.plain⟩
    refine .change rfl rfl rfl fun name i hi => ?_
    change ((w₁.queues.modify _ _).get? name).map (·.id) = some i
    rw [Table.get?_modify]
    split
    · rw [Option.map_map]
      exact hi
    · exact hi

theorem Decides.confined {name : Name} {call : CallId} {stage : DequeueStage} {h : Hazard}
    {q : Queue} {found : Option (Payload V)} (hd : Decides w name call stage h w' q found) :
    w.Confined t w' ∧ w'.queueId? name = some q.id := by
  cases hd with
  | front hq hround =>
    obtain ⟨b, n, -, -, -, -, rfl, rfl⟩ := Queue.dequeueRound_claimed hround
    have hid := World.queueId?_of_get? hq
    exact ⟨.setQueue rfl hid rfl rfl rfl, World.queueId?_of_get? (Table.get?_insert_self ..)⟩
  | empty hq => exact ⟨.still rfl rfl rfl rfl, World.queueId?_of_get? hq⟩
  | detached hq hclaim =>
    obtain ⟨n, -, -, rfl, rfl⟩ := Queue.claim_taken hclaim
    have hid := World.queueId?_of_get? hq
    exact ⟨.setQueue rfl hid rfl rfl rfl, World.queueId?_of_get? (Table.get?_insert_self ..)⟩

theorem Gives.confined {queue : Name} {q : Queue} {goal : Goal V} {v : Option V}
    (h : Gives queue q w goal v w' fs c) (hid : w.queueId? queue = some q.id) :
    w.Confined t w' ∧ fs.any Frame.isFinal = false := by
  cases h with
  | once | last | more | wait => exact ⟨.refl w t, rfl⟩
  | value => exact ⟨.setQueue rfl hid rfl rfl rfl, rfl⟩

theorem Dequeues.confined {d : DequeueFrame V} (h : Dequeues t w d w' fs c) :
    w.Confined t w' ∧ fs.any Frame.isFinal = false := by
  have hunlinks {call : CallId} {x : Hazard} {q q' : Queue} {a : Address}
      (hq : w.queues.get? d.queue = some q)
      (hround : q.dequeueRound w.memory.nodes = .unlinked a q') :
      w.Confined t (((w.publish x q.head).2.setQueue d.queue q').noteUnlinked q.id call a) := by
    obtain ⟨n, next, -, -, -, -, rfl⟩ := Queue.dequeueRound_unlinked hround
    have hid := World.queueId?_of_get? hq
    exact (World.Confined.noteUnlinked _ t q.id call a).after (.setQueue rfl hid rfl rfl rfl)
  cases h with
  | lost | overflows | claimStrays | claimRefused => exact ⟨.refl w t, rfl⟩
  | strays | fails | again => exact ⟨.still rfl rfl rfl rfl, rfl⟩
  | begins h w₁ _ _ hcreate =>
    have hcreated : w.Confined t w₁ := .createHazard hcreate
    exact ⟨hcreated.trans (.still rfl rfl rfl rfl), rfl⟩
  | helps call h q q' _ hq hround =>
    obtain ⟨t, last, next, -, -, -, rfl⟩ := Queue.dequeueRound_helped hround
    have hid := (World.queueId?_of_get? hq).trans
      (congrArg some (q.counts_advanceTail t next).1.symm)
    exact ⟨.setQueue rfl hid rfl rfl rfl, rfl⟩
  | unlinkOverflows call h q q' a p _ hq hround => exact ⟨hunlinks hq hround, rfl⟩
  | unlinks call h q q' a rs s _ hq hround hs =>
    exact ⟨(hunlinks hq hround).trans (.atSite (Site.retire_confined hs) rfl rfl rfl rfl), rfl⟩
  | breaks call h q found w₁ _ p hdecides hdrop =>
    exact ⟨hdecides.confined.1.trans (.dropHazard hdrop), rfl⟩
  | ends call h q found w₁ w₂ _ _ _ hdecides hdrop hgives =>
    obtain ⟨hdecided, hid⟩ := hdecides.confined (t := t)
    have hdropped : w₁.Confined t (w₂.emit (.returned q.id call (found.map (·.value)))) :=
      (World.Confined.dropHazard hdrop).trans (.still rfl rfl rfl rfl)
    obtain ⟨hgiven, hplain⟩ := hgives.confined (t := t) (hdropped.ids d.queue q.id hid)
    exact ⟨(hdecided.trans hdropped).trans hgiven, hplain⟩

theorem Proceeds.confined {f : Frame V} (h : Proceeds t w f w' fs c)
    (hf : f.isFinal = false) : w.Confined t w' ∧ fs.any Frame.isFinal = false := by
  cases h with
  | scriptOver | acts | answers | keepsNothing => exact ⟨.refl w t, rfl⟩
  | acted => exact ⟨.still rfl rfl rfl rfl, rfl⟩
  | reclaims h => exact h.confined
  | enqueues h => exact h.confined
  | dequeues h => exact h.confined
  | abandons b hb => exact ⟨.abandoning hb, rfl⟩
  | chainOver | chainStrays | frees | stays | leaves | exits => cases hf

end transitions

namespace Run

structure Confined (m n : Run V) : Prop where
  thread : n.thread = m.thread
  stack : ∃ fs, n.stack = fs ++ m.stack ∧ fs.any Frame.isFinal = false
  world : m.world.Confined m.thread n.world

theorem Follows.confined {m n : Run V} (h : Follows (fun w fs _ =>
    m.world.Confined m.thread w ∧ fs.any Frame.isFinal = false) m n) : m.Confined n := by
  obtain ⟨hthread, fs, hstack, hworld, hplain⟩ := h
  exact ⟨hthread, ⟨fs, hstack, hplain⟩, hworld⟩

theorem perform_confined (m : Run V) (op : Op V) : m.Confined (m.perform op) :=
  ((m.perform_performs op).imp fun _ _ _ h => h.confined).confined

/-- What a step works on top of: all frames there are, or those below the innermost. Only frames
that end a thread or a queue do otherwise. -/
theorem step_confined (m : Run V) :
    m.Confined m.step ∨
      (∃ f rest, m.stack = f :: rest ∧ (m.IsCalm → f.isFinal = false) ∧
        Confined { m with stack := rest } m.step) ∨
      ∃ f rest, m.stack = f :: rest ∧ f.isFinal = true ∧
        m.step = proceed { m with stack := rest, control := .resume } f := by
  rcases m.step_cases with hsame | ⟨cue, rest, hcontrol, hstack, hthread, fs, hstep, htransition⟩
  · rw [hsame]
    exact .inl ⟨rfl, ⟨[], rfl, rfl⟩, .refl _ _⟩
  · generalize hworld : m.step.world = w' at htransition
    generalize m.step.control = c at htransition
    have hpopped (h : m.world.Confined m.thread w') (hplain : fs.any Frame.isFinal = false) :
        Confined { m with stack := rest } m.step :=
      ⟨hthread, ⟨fs, hstep, hplain⟩, hworld ▸ h⟩
    cases htransition with
    | performs h =>
      refine .inl ⟨hthread, ⟨fs, hstep.trans ?_, h.confined.2⟩, hworld ▸ h.confined.1⟩
      rw [hstack]
      rfl
    | @proceeds f _ _ _ h =>
      cases hf : f.isFinal with
      | false =>
        exact .inr (.inl ⟨f, rest, hstack, fun _ => hf,
          hpopped (h.confined hf).1 (h.confined hf).2⟩)
      | true => exact .inr (.inr ⟨f, rest, hstack, hf, step_of_resume hstack hcontrol⟩)
    | acted a label acts =>
      exact .inr (.inl ⟨_, rest, hstack, fun _ => rfl, hpopped (.still rfl rfl rfl rfl) rfl⟩)
    | passesOn a f =>
      refine .inl ⟨hthread, ⟨[], hstep.trans ?_, rfl⟩, hworld ▸ .refl _ _⟩
      rw [hstack]
      rfl
    | catches p label acts =>
      exact .inr (.inl ⟨_, rest, hstack, fun _ => rfl, hpopped (.still rfl rfl rfl rfl) rfl⟩)
    | releases p f h =>
      exact .inr (.inl ⟨f, rest, hstack, fun hcalm => absurd hcontrol (hcalm p),
        hpopped (.dropHazard rfl) rfl⟩)
    | passesThrough p f =>
      exact .inr (.inl ⟨f, rest, hstack, fun hcalm => absurd hcontrol (hcalm p),
        hpopped (.refl _ _) rfl⟩)

end Run
end Reclaim
