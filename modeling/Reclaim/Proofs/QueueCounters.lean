import Reclaim.Proofs.FreeContexts
import Reclaim.Proofs.QueueReceipts

/-!
The two counters of a queue. An insertion is counted once the node is linked, a removal once its
value is claimed, and between the link or the claim and the end of the operation only the hazard
pointer is dropped. That cannot fail, since the thread has created the hazard pointer and so has had
a context, and thus the counters are exact in every reachable state, with panics and without
(`Run.Reachable.tallied`).
-/

set_option autoImplicit false

namespace Reclaim
variable {V : Type}

namespace World

def books (w : World V) :
    Table Name Queue × (QueueId → List V) × List (QueueId × CallId × V) :=
  (w.queues, fun i => linkedIn i w.history, w.receipts)

theorem books_retired (w : World V) (rs : List Retired) :
    World.books { w with history := (rs.map Event.retired).reverse ++ w.history } = w.books := by
  rw [← foldl_emit]
  induction rs generalizing w with
  | nil => rfl
  | cons r rs ih => exact ih (w.emit (.retired r))

structure SameCounts (w w' : World V) : Prop where
  queues : ∀ name q', w'.queues.get? name = some q' → ∃ q, w.queues.get? name = some q ∧
    q'.id = q.id ∧ q'.inserted = q.inserted ∧ q'.removed = q.removed
  linked : ∀ i, linkedIn i w'.history = linkedIn i w.history
  receipts : w'.receipts = w.receipts

namespace SameCounts
variable {w w' w₁ : World V}

theorem of_books (h : w'.books = w.books) : w.SameCounts w' := by
  obtain ⟨hqueues, h⟩ := Prod.mk.inj h
  obtain ⟨hlinked, hreceipts⟩ := Prod.mk.inj h
  exact ⟨fun _ q' hq' => ⟨q', hqueues ▸ hq', rfl, rfl, rfl⟩, congrFun hlinked, hreceipts⟩

theorem refl (w : World V) : w.SameCounts w := .of_books rfl

theorem trans (h : w.SameCounts w₁) (h' : w₁.SameCounts w') : w.SameCounts w' := by
  refine ⟨fun name q' hq' => ?_, fun i => (h'.linked i).trans (h.linked i),
    h'.receipts.trans h.receipts⟩
  obtain ⟨q₁, hq₁, hid₁, hins₁, hrem₁⟩ := h'.queues name q' hq'
  obtain ⟨q, hq, hid, hins, hrem⟩ := h.queues name q₁ hq₁
  exact ⟨q, hq, hid₁.trans hid, hins₁.trans hins, hrem₁.trans hrem⟩

theorem after (h : w₁.SameCounts w') (hbooks : w₁.books = w.books) : w.SameCounts w' :=
  (of_books hbooks).trans h

/-- One queue changes, but not its counters. -/
theorem insert {name : Name} {q q₁ : Queue} (hq : w.queues.get? name = some q)
    (hqueues : w'.queues = w.queues.insert name q₁) (hid : q₁.id = q.id)
    (hins : q₁.inserted = q.inserted) (hrem : q₁.removed = q.removed)
    (hlinked : ∀ i, linkedIn i w'.history = linkedIn i w.history)
    (hreceipts : w'.receipts = w.receipts) : w.SameCounts w' := by
  refine ⟨fun name' q' hq' => ?_, hlinked, hreceipts⟩
  rw [hqueues, Table.get?_insert] at hq'
  split at hq'
  · rename_i hname
    obtain rfl := Option.some.inj hq'
    exact ⟨q, hname ▸ hq, hid, hins, hrem⟩
  · exact ⟨q', hq', rfl, rfl, rfl⟩

end SameCounts

theorem sameCounts_createHazard {w w' : World V} {t : ThreadId} {h : Hazard}
    (e : w.createHazard t = .ok (h, w')) : w.SameCounts w' := by
  obtain ⟨i, s, -, -, rfl⟩ := createHazard_eq e
  exact .of_books rfl

theorem sameCounts_dropHazard {w w' : World V} {t : ThreadId} {h : Hazard} {r : Option Panic}
    (e : w.dropHazard t h = (r, w')) : w.SameCounts w' := by
  cases dropHazard_drops e <;> exact .of_books rfl

theorem sameCounts_noteUnlinked (w : World V) (i : QueueId) (c : CallId) (a : Address) :
    w.SameCounts (w.noteUnlinked i c a) := by
  unfold noteUnlinked
  split <;> exact .of_books rfl

variable {w w' w₂ w₃ : World V} {hs : List (Holding V)} {lost : List (QueueId × CallId × V)}
  {name name₁ : Name} {q q₂ q₃ : Queue} {c : CallId} {v : V}

/-- The counters of a queue say how many values it has taken in and how many it has given back. -/
def Tallied (w : World V) : Prop :=
  ∀ name q, w.queues.get? name = some q →
    q.inserted = .ofNat (linkedIn q.id w.history).length ∧
      q.removed = .ofNat (w.receipts.countP (·.1 = q.id))

theorem tallied_empty : ({} : World V).Tallied := by
  simp [Tallied, Table.get?_empty]

theorem Tallied.same (h : w.Tallied) (hsame : w.SameCounts w') : w'.Tallied := by
  intro name q' hq'
  obtain ⟨q, hq, hid, hins, hrem⟩ := hsame.queues name q' hq'
  rw [hins, hrem, hid, hsame.linked, hsame.receipts]
  exact h name q hq

theorem SameCounts.of_insert (hsame : w₂.SameCounts w₃)
    (hqueues : w₂.queues = w.queues.insert name q₂) (h₃ : w₃.queues.get? name₁ = some q₃) :
    (name₁ = name ∧ q₃.id = q₂.id ∧ q₃.inserted = q₂.inserted ∧ q₃.removed = q₂.removed) ∨
      (name₁ ≠ name ∧ ∃ q₁, w.queues.get? name₁ = some q₁ ∧ q₃.id = q₁.id ∧
        q₃.inserted = q₁.inserted ∧ q₃.removed = q₁.removed) := by
  obtain ⟨q₁, h₁, hcounts⟩ := hsame.queues name₁ q₃ h₃
  rw [hqueues, Table.get?_insert] at h₁
  split at h₁
  · rename_i hname
    obtain rfl := Option.some.inj h₁
    exact .inl ⟨hname, hcounts⟩
  · rename_i hname
    exact .inr ⟨hname, q₁, h₁, hcounts⟩

/-- An insertion adds one value, and is counted when the hazard pointer is dropped. -/
theorem Tallied.insert (h : w.Tallied) (hordered : w.Ordered) (hq : w.queues.get? name = some q)
    (hsame : w₂.SameCounts w₃) (hqueues : w₂.queues = w.queues.insert name q₂)
    (hid : q₂.id = q.id) (hins : q₂.inserted = q.inserted) (hrem : q₂.removed = q.removed)
    (hlinked : ∀ i, linkedIn i w₂.history =
      linkedIn i w.history ++ if q.id = i then [v] else [])
    (hreceipts : w₂.receipts = w.receipts) :
    World.Tallied { w₃ with queues := w₃.queues.modify name Queue.noteInserted } := by
  intro name₁ q₁ h₁
  change q₁.inserted = .ofNat (linkedIn q₁.id w₃.history).length ∧
    q₁.removed = .ofNat (w₃.receipts.countP (·.1 = q₁.id))
  change (w₃.queues.modify name Queue.noteInserted).get? name₁ = some q₁ at h₁
  rw [hsame.receipts, hreceipts, hsame.linked, hlinked]
  rw [Table.get?_modify] at h₁
  split at h₁
  · rename_i hname
    obtain ⟨q₃, h₃, rfl⟩ := Option.map_eq_some_iff.1 h₁
    obtain ⟨-, hid₃, hins₃, hrem₃⟩ | ⟨hne, -⟩ := hsame.of_insert hqueues h₃
    · obtain ⟨hinserted, hremoved⟩ := h name q hq
      have hself : q₃.noteInserted.id = q.id := hid₃.trans hid
      rw [hself, if_pos rfl, List.length_append, UInt64.ofNat_add, ← hinserted, ← hremoved]
      exact ⟨congrArg (· + 1) (hins₃.trans hins), hrem₃.trans hrem⟩
    · exact absurd hname hne
  · rename_i hname
    obtain ⟨heq, -⟩ | ⟨-, q₀, h₀, hid₀, hins₀, hrem₀⟩ := hsame.of_insert hqueues h₁
    · exact absurd heq hname
    · have hne : q.id ≠ q₀.id := (hordered.id_ne hq hname h₀).symm
      rw [hid₀, if_neg hne, List.append_nil, hins₀, hrem₀]
      exact h name₁ q₀ h₀

/-- A value is counted when it is claimed, and returned when the hazard pointer is dropped. -/
theorem Tallied.remove (h : w.Tallied) (hordered : w.Ordered) (hq : w.queues.get? name = some q)
    (hsame : w₂.SameCounts w₃) (hqueues : w₂.queues = w.queues.insert name q₂)
    (hid : q₂.id = q.id) (hins : q₂.inserted = q.inserted) (hrem : q₂.removed = q.removed + 1)
    (hlinked : ∀ i, linkedIn i w₂.history = linkedIn i w.history)
    (hreceipts : w₂.receipts = w.receipts) :
    (w₃.emit (.returned q₂.id c (some v))).Tallied := by
  intro name₁ q₃ h₃
  have hnew : (w₃.emit (.returned q₂.id c (some v))).receipts = (q₂.id, c, v) :: w.receipts :=
    congrArg ((q₂.id, c, v) :: ·) (hsame.receipts.trans hreceipts)
  have hlist : linkedIn q₃.id (w₃.emit (.returned q₂.id c (some v))).history =
      linkedIn q₃.id w.history := (hsame.linked q₃.id).trans (hlinked q₃.id)
  rw [hnew, hlist, List.countP_cons]
  obtain ⟨-, hid₃, hins₃, hrem₃⟩ | ⟨hname, q₀, h₀, hid₀, hins₀, hrem₀⟩ :=
    hsame.of_insert hqueues h₃
  · obtain ⟨hinserted, hremoved⟩ := h name q hq
    rw [hins₃, hrem₃, hid₃, hins, hrem, hid, if_pos (decide_eq_true rfl), UInt64.ofNat_add,
      ← hinserted, ← hremoved]
    exact ⟨rfl, rfl⟩
  · have hne : q₂.id ≠ q₀.id := hid ▸ (hordered.id_ne hq hname h₀).symm
    rw [hins₀, hrem₀, hid₀, if_neg (by simpa using hne), Nat.add_zero]
    exact h name₁ q₀ h₀

/-- A new queue has taken in and given back nothing. -/
theorem Tallied.createQueue (h : w.Tallied) (hordered : w.Ordered)
    (hreceipts : ∀ x ∈ w.receipts, x.1 < w.nextQueue) (name : Name) (strategy : WaitStrategy) :
    World.Tallied (World.emit { w with
      memory := (w.memory.allocateNode {}).2
      queues := w.queues.insert name (Queue.create w.nextQueue w.memory.fresh strategy)
      nextQueue := w.nextQueue + 1 } (.nodeAllocated w.memory.fresh)) := by
  intro name₁ q₁ hq₁
  change (w.queues.insert name _).get? name₁ = some q₁ at hq₁
  rw [Table.get?_insert] at hq₁
  split at hq₁
  · obtain rfl := Option.some.inj hq₁
    have hlinked := (hordered.fresh w.nextQueue (Nat.le_refl _)).1
    have hnone : w.receipts.countP (·.1 = w.nextQueue) = 0 :=
      List.countP_eq_zero.2 fun x hx => by simpa using Nat.ne_of_lt (hreceipts x hx)
    change (0 : UInt64) = .ofNat (linkedIn w.nextQueue w.history).length ∧
      (0 : UInt64) = .ofNat (w.receipts.countP (·.1 = w.nextQueue))
    rw [hlinked, hnone]
    exact ⟨rfl, rfl⟩
  · exact h name₁ q₁ hq₁

/-- What was returned came from a queue that is there or was there. -/
theorem receipts_bounded (hordered : w.Ordered) (hsettled : w.Settled hs lost) :
    ∀ x ∈ w.receipts, x.1 < w.nextQueue := by
  intro x hx
  have hmem : x ∈ w.removals := hsettled.values.mem_iff.2
    (List.mem_append_right _ (List.mem_append_left _ hx))
  obtain ⟨e, he, hex⟩ := List.mem_filterMap.1 hmem
  cases e with
  | removed i c a v =>
    obtain rfl := Option.some.inj hex
    refine Nat.lt_of_not_le fun hle => ?_
    have hnone := (hordered.fresh i hle).2
    have hv : v ∈ removedIn i w.history :=
      List.mem_reverse.2 (List.mem_filterMap.2 ⟨_, he, if_pos rfl⟩)
    rw [hnone] at hv
    cases hv
  | _ => cases hex

end World

theorem Registry.isActive_protect {g : Registry} {i : RecordId} (hi : g.isActive i = true)
    (a : Option Address) : (g.protect i a).isActive i = true := by
  rw [isActive, records_protect, if_pos rfl]
  simpa [isActive, Option.any_map] using hi

theorem World.Sound.isActive {w : World V} {h : Hazard} {hs : List (Holding V)}
    (hsound : w.Sound hs) (hh : h ∈ hs.filterMap Holding.hazard?) :
    w.domain.registry.isActive h.record = true := by
  rw [Registry.isActive, hsound.owned.published h (List.mem_append_right _ hh)]
  rfl

/-! A thread that has a hazard pointer to drop has had a context. -/

section contexts
variable {t : ThreadId} {w w' : World V} {fs : List (Frame V)} {c : Control V}

theorem Performs.hazards {op : Op V} (h : Performs t w op w' fs c) :
    fs.filterMap Frame.hazard? = [] := by
  cases h with
  | startsEnqueue e _ hstage =>
    obtain ⟨queue, stage, current, rest, answer⟩ := e
    obtain rfl : stage = .start := hstage
    rfl
  | startsDequeue d _ hstage =>
    obtain ⟨queue, stage, goal⟩ := d
    obtain rfl : stage = .start := hstage
    rfl
  | _ => rfl

theorem Empties.hazards {s : Slot (Payload V)} (h : Empties w s w' fs) :
    fs.filterMap Frame.hazard? = [] := by
  cases h <;> rfl

theorem Reclaims.hazards {rs : List Retired} (h : Reclaims w rs w' fs c) :
    fs.filterMap Frame.hazard? = [] := by
  cases h with
  | finished | strays | object => rfl
  | node r rest n w₁ fs _ _ hempties => rw [List.filterMap_append, hempties.hazards]; rfl

/-- An insertion that has a hazard pointer has created it, or has had it before. -/
theorem Enqueues.anchored {e : EnqueueFrame V} (h : Enqueues t w e w' fs c)
    (hheld : (Frame.enqueue e).hazard?.isSome = true → w.HasContext t)
    (hfs : fs.filterMap Frame.hazard? ≠ []) : w'.HasContext t := by
  cases h with
  | overflows | lost | strays | breaks => exact absurd rfl hfs
  | allocates h w₁ _ hcreate => exact World.hasContext_createHazard hcreate
  | fails h a q p hstage =>
    obtain ⟨queue, stage, current, rest, answer⟩ := e
    obtain rfl : stage = .link h a := hstage
    exact hheld rfl
  | helps h a q q' hstage =>
    obtain ⟨queue, stage, current, rest, answer⟩ := e
    obtain rfl : stage = .link h a := hstage
    exact hheld rfl
  | links h a q q' nodes w₁ _ _ _ _ _ _ hsupplies => cases hsupplies <;> exact absurd rfl hfs

theorem Decides.hasContext {name : Name} {call : CallId} {stage : DequeueStage} {h : Hazard}
    {q : Queue} {found : Option (Payload V)} (hd : Decides w name call stage h w' q found)
    (hw : w.HasContext t) : w'.HasContext t := by
  cases hd <;> exact hw

theorem Decides.hazard {d : DequeueFrame V} {call : CallId} {h : Hazard} {q : Queue}
    {found : Option (Payload V)} (hd : Decides w d.queue call d.stage h w' q found) :
    (Frame.dequeue d).hazard?.isSome = true := by
  obtain ⟨name, stage, goal⟩ := d
  cases hd <;> rfl

theorem Gives.hazards {queue : Name} {q : Queue} {goal : Goal V} {v : Option V}
    (h : Gives queue q w goal v w' fs c) : fs.filterMap Frame.hazard? = [] := by
  cases h <;> rfl

theorem hasContext_noteUnlinked {i : QueueId} {call : CallId} {a : Address}
    (hw : w.HasContext t) : (w.noteUnlinked i call a).HasContext t := by
  rw [World.noteUnlinked_eq]
  exact hw

theorem Dequeues.anchored {d : DequeueFrame V} (h : Dequeues t w d w' fs c)
    (hheld : (Frame.dequeue d).hazard?.isSome = true → w.HasContext t)
    (hfs : fs.filterMap Frame.hazard? ≠ []) : w'.HasContext t := by
  have hround {call : CallId} {x : Hazard} (hstage : d.stage = .round call x) :
      w.HasContext t := by
    obtain ⟨queue, stage, goal⟩ := d
    obtain rfl : stage = .round call x := hstage
    exact hheld rfl
  cases h with
  | lost | overflows | strays | claimStrays | breaks => exact absurd rfl hfs
  | begins h w₁ _ _ hcreate =>
    have hcreated := World.hasContext_createHazard hcreate
    exact hcreated
  | fails call h q p hstage => exact hround hstage
  | helps call h q q' hstage => exact hround hstage
  | again call h q hstage => exact hround hstage
  | unlinkOverflows call h q q' a p hstage => exact hasContext_noteUnlinked (hround hstage)
  | unlinks call h q q' a rs s _ _ _ hs => exact World.hasContext_setSite (Site.retire_present hs)
  | claimRefused call h a q hstage =>
    obtain ⟨queue, stage, goal⟩ := d
    obtain rfl : stage = .unlinked call h a := hstage
    exact hheld rfl
  | ends call h q found w₁ w₂ _ _ _ _ _ hgives => exact absurd hgives.hazards hfs

theorem Proceeds.anchored {f : Frame V} (h : Proceeds t w f w' fs c)
    (hheld : f.hazard?.isSome = true → w.HasContext t)
    (hfs : fs.filterMap Frame.hazard? ≠ []) : w'.HasContext t := by
  cases h with
  | enqueues h => exact h.anchored hheld hfs
  | dequeues h => exact h.anchored hheld hfs
  | reclaims h => exact absurd h.hazards hfs
  | frees i a n w₁ fs _ hempties =>
    rw [List.filterMap_append, hempties.hazards] at hfs
    exact absurd rfl hfs
  | _ => exact absurd rfl hfs

theorem Transition.anchored {cue : Cue V} (h : Transition t w cue w' fs c)
    (hheld : cue.frames.filterMap Frame.hazard? ≠ [] → w.HasContext t)
    (hfs : fs.filterMap Frame.hazard? ≠ []) : w'.HasContext t := by
  cases h with
  | performs h => exact absurd h.hazards hfs
  | @proceeds f _ _ _ h =>
    refine h.anchored (fun hf => hheld ?_) hfs
    obtain ⟨x, hx⟩ := Option.isSome_iff_exists.1 hf
    rw [Cue.frames, List.filterMap_cons_some hx]
    exact List.cons_ne_nil _ _
  | passesOn a f => exact hheld hfs
  | acted | catches | releases | passesThrough => exact absurd rfl hfs

end contexts

/-! What counts, and what counts nothing. -/

section counters
variable {t : ThreadId} {w w' : World V} {fs : List (Frame V)} {c : Control V}

theorem Performs.tallied {op : Op V} (h : Performs t w op w' fs c) (hordered : w.Ordered)
    (hreceipts : ∀ x ∈ w.receipts, x.1 < w.nextQueue) (hw : w.Tallied) : w'.Tallied := by
  cases h with
  | createsQueue name strategy => exact hw.createQueue hordered hreceipts name strategy
  | startsWaiting name q waiter goal hq =>
    exact hw.same (.insert hq rfl rfl rfl rfl (fun _ => rfl) rfl)
  | answers | panics | strays | overflows | startsEnqueue | startsDequeue => exact hw
  | installs | counts | flushes | creates | stores | publishes => exact hw.same (.of_books rfl)
  | retireOverflows a w₁ p hmark =>
    obtain ⟨e, -, -, -, rfl⟩ := World.markRetired_spec hmark
    exact hw.same (.of_books rfl)
  | retires a w₁ rs s hmark =>
    obtain ⟨e, -, -, -, rfl⟩ := World.markRetired_spec hmark
    exact hw.same (.of_books rfl)
  | abandonRefused r w₁ hmark =>
    obtain ⟨records, rfl⟩ := World.records_markAllRetired hmark
    exact hw.same (.of_books rfl)
  | abandonFails as w₁ p hmark =>
    obtain ⟨records, rfl⟩ := World.records_markAllRetired hmark
    exact hw.same (.of_books rfl)
  | abandons as w₁ b hmark =>
    obtain ⟨records, rfl⟩ := World.records_markAllRetired hmark
    rw [World.foldl_emit]
    exact hw.same (.of_books (World.books_retired _ _))
  | holds h h' w₁ w₂ _ hcreate hpublish =>
    have hcreated := hw.same (World.sameCounts_createHazard hcreate)
    rcases hpublish with hnot | ⟨a, hpublish⟩
    · obtain ⟨rfl, rfl⟩ := Prod.mk.inj hnot
      exact hcreated
    · obtain ⟨rfl, rfl⟩ := Prod.mk.inj hpublish
      exact hcreated
  | tries h w₁ w₂ a hcreate hdrop =>
    exact (hw.same (World.sameCounts_createHazard hcreate)).same
      (World.sameCounts_dropHazard hdrop)
  | drops hazard h w₁ _ hdrop | dropFails hazard h p w₁ _ hdrop =>
    exact hw.same ((World.sameCounts_dropHazard hdrop).after rfl)

theorem Reclaims.tallied {rs : List Retired} (h : Reclaims w rs w' fs c) (hw : w.Tallied) :
    w'.Tallied := by
  cases h with
  | finished | strays => exact hw
  | object r rest o w₁ _ htells => cases htells <;> exact hw.same (.of_books rfl)
  | node r rest n w₁ fs _ _ hempties => cases hempties <;> exact hw.same (.of_books rfl)

theorem Enqueues.tallied {e : EnqueueFrame V} {hs : List (Holding V)}
    (h : Enqueues t w e w' fs c) (hsound : w.Sound ((Frame.enqueue e).holdings ++ hs))
    (hordered : w.Ordered) (hheld : (Frame.enqueue e).hazard?.isSome = true → w.HasContext t)
    (hw : w.Tallied) : w'.Tallied := by
  cases h with
  | lost => exact hw
  | overflows | strays | fails => exact hw.same (.of_books rfl)
  | allocates h w₁ _ hcreate =>
    exact hw.same ((World.sameCounts_createHazard hcreate).after rfl)
  | helps h a q q' _ hq hround =>
    obtain ⟨t, last, next, -, -, -, rfl⟩ := Queue.enqueueRound_helped hround
    obtain ⟨hid, hins, hrem⟩ := q.counts_advanceTail t next
    exact hw.same (.insert hq rfl hid hins hrem (fun _ => rfl) rfl)
  | breaks h a q q' nodes p w₁ hstage _ _ hdrop =>
    obtain ⟨name, stage, current, rest, reply⟩ := e
    obtain rfl : stage = .link h a := hstage
    have hactive := hsound.isActive (h := h) (by simp [Frame.holdings, Holding.hazard?])
    have hgoes := World.dropHazard_eq (w := (((w.publish h q.tail).2.setQueue name q').setNodes
      nodes).emit (.linked q'.id a current.value)) (h := { h with target := q.tail })
      (Registry.isActive_protect hactive q.tail) (hheld rfl)
    cases (Prod.mk.inj (hgoes.symm.trans hdrop)).1
  | links h a q q' nodes w₁ _ _ _ hq hround hdrop =>
    obtain ⟨t, last, -, -, -, rfl, rfl⟩ := Queue.enqueueRound_linked hround
    exact hw.insert hordered hq (World.sameCounts_dropHazard hdrop) rfl rfl rfl rfl
      (fun i => linkedIn_linked i q.id a e.current.value _) rfl

/-- Whoever has come to a result drops the hazard pointer without a panic. -/
theorem Decides.isActive {d : DequeueFrame V} {call : CallId} {h : Hazard} {q : Queue}
    {found : Option (Payload V)} {hs : List (Holding V)}
    (hd : Decides w d.queue call d.stage h w' q found)
    (hsound : w.Sound ((Frame.dequeue d).holdings ++ hs)) :
    w'.domain.registry.isActive h.record = true := by
  obtain ⟨name, stage, goal⟩ := d
  dsimp only at hd
  cases hd with
  | front =>
    exact Registry.isActive_protect (hsound.isActive (by simp [Frame.holdings, Holding.hazard?])) _
  | empty =>
    exact Registry.isActive_protect (hsound.isActive (by simp [Frame.holdings, Holding.hazard?])) _
  | detached => exact hsound.isActive (by simp [Frame.holdings, Holding.hazard?])

/-- The removal of a value is counted when the value is claimed. -/
theorem Decides.tallied {d : DequeueFrame V} {call : CallId} {h : Hazard} {q : Queue}
    {found : Option (Payload V)} {w₁ : World V}
    (hd : Decides w d.queue call d.stage h w' q found) (hordered : w.Ordered) (hw : w.Tallied)
    (hsame : w'.SameCounts w₁) :
    (w₁.emit (.returned q.id call (found.map (·.value)))).Tallied ∧
      w'.queues.get? d.queue = some q := by
  obtain ⟨name, stage, goal⟩ := d
  dsimp only at hd
  cases hd with
  | front hq hround =>
    obtain ⟨b, n, -, -, -, -, rfl, rfl⟩ := Queue.dequeueRound_claimed hround
    exact ⟨hw.remove hordered hq hsame rfl rfl rfl rfl (fun _ => rfl) rfl,
      Table.get?_insert_self ..⟩
  | empty hq =>
    exact ⟨(hw.same (hsame.after rfl)).same (.of_books rfl), hq⟩
  | detached hq hclaim =>
    obtain ⟨n, -, -, rfl, rfl⟩ := Queue.claim_taken hclaim
    exact ⟨hw.remove hordered hq hsame rfl rfl rfl rfl (fun _ => rfl) rfl,
      Table.get?_insert_self ..⟩

theorem Gives.sameCounts {queue : Name} {q : Queue} {goal : Goal V} {v : Option V}
    (h : Gives queue q w goal v w' fs c) (hq : w.queues.get? queue = some q) :
    w.SameCounts w' := by
  cases h with
  | once | last | more | wait => exact .refl w
  | value => exact .insert hq rfl rfl rfl rfl (fun _ => rfl) rfl

theorem Dequeues.tallied {d : DequeueFrame V} {hs : List (Holding V)}
    (h : Dequeues t w d w' fs c) (hsound : w.Sound ((Frame.dequeue d).holdings ++ hs))
    (hordered : w.Ordered) (hheld : (Frame.dequeue d).hazard?.isSome = true → w.HasContext t)
    (hw : w.Tallied) : w'.Tallied := by
  cases h with
  | lost | overflows | claimStrays | claimRefused => exact hw
  | strays | fails | again => exact hw.same (.of_books rfl)
  | begins h w₁ _ _ hcreate =>
    have hsame := hw.same (World.sameCounts_createHazard hcreate)
    exact hsame.same (.of_books rfl)
  | helps call h q q' _ hq hround =>
    obtain ⟨t, last, next, -, -, -, rfl⟩ := Queue.dequeueRound_helped hround
    obtain ⟨hid, hins, hrem⟩ := q.counts_advanceTail t next
    exact hw.same (.insert hq rfl hid hins hrem (fun _ => rfl) rfl)
  | unlinkOverflows call h q q' a p _ hq hround =>
    obtain ⟨n, next, -, -, -, -, rfl⟩ := Queue.dequeueRound_unlinked hround
    refine (hw.same ?_).same (World.sameCounts_noteUnlinked _ _ _ _)
    exact .insert hq rfl rfl rfl rfl (fun _ => rfl) rfl
  | unlinks call h q q' a rs s _ hq hround =>
    obtain ⟨n, next, -, -, -, -, rfl⟩ := Queue.dequeueRound_unlinked hround
    have hunlinked : World.Tallied ((World.setQueue (w.publish h q.head).2 d.queue
        { q with head := some next }).noteUnlinked q.id call a) := by
      refine (hw.same ?_).same (World.sameCounts_noteUnlinked _ _ _ _)
      exact .insert hq rfl rfl rfl rfl (fun _ => rfl) rfl
    exact hunlinked.same (.of_books rfl)
  | breaks call h q found w₁ _ p hdecides hdrop =>
    have hgoes := World.dropHazard_eq (hdecides.isActive hsound)
      (hdecides.hasContext (hheld hdecides.hazard))
    cases (Prod.mk.inj (hgoes.symm.trans hdrop)).1
  | ends call h q found w₁ w₂ _ _ _ hdecides hdrop hgives =>
    obtain ⟨hended, hq⟩ := hdecides.tallied hordered hw (World.sameCounts_dropHazard hdrop)
    rw [← World.queues_of_dropHazard hdrop] at hq
    exact hended.same (hgives.sameCounts hq)

theorem Proceeds.tallied {f : Frame V} {hs : List (Holding V)} (h : Proceeds t w f w' fs c)
    (hsound : w.Sound (f.holdings ++ hs)) (hordered : w.Ordered)
    (hheld : f.hazard?.isSome = true → w.HasContext t) (hw : w.Tallied) : w'.Tallied := by
  cases h with
  | scriptOver | acts | answers | chainOver | chainStrays | stays | keepsNothing => exact hw
  | acted | leaves | abandons | exits => exact hw.same (.of_books rfl)
  | reclaims h => exact h.tallied hw
  | enqueues h => exact h.tallied hsound hordered hheld hw
  | dequeues h => exact h.tallied hsound hordered hheld hw
  | frees i a n w₁ fs _ hempties => cases hempties <;> exact hw.same (.of_books rfl)

theorem Transition.tallied {cue : Cue V} {hs : List (Holding V)}
    (h : Transition t w cue w' fs c)
    (hsound : w.Sound (cue.frames.flatMap Frame.holdings ++ hs)) (hordered : w.Ordered)
    (hreceipts : ∀ x ∈ w.receipts, x.1 < w.nextQueue)
    (hheld : cue.frames.filterMap Frame.hazard? ≠ [] → w.HasContext t) (hw : w.Tallied) :
    w'.Tallied := by
  cases h with
  | performs h => exact h.tallied hordered hreceipts hw
  | @proceeds f _ _ _ h =>
    rw [Cue.frames, List.flatMap_singleton] at hsound
    refine h.tallied hsound hordered (fun hf => hheld ?_) hw
    obtain ⟨x, hx⟩ := Option.isSome_iff_exists.1 hf
    rw [Cue.frames, List.filterMap_cons_some hx]
    exact List.cons_ne_nil _ _
  | passesOn | passesThrough => exact hw
  | acted | catches => exact hw.same (.of_books rfl)
  | releases p f h => exact hw.same (World.sameCounts_dropHazard rfl)

end counters

namespace Run
variable {m n : Run V}

structure Accurate (m : Run V) : Prop where
  tallied : m.world.Tallied
  anchored : m.stack.filterMap Frame.hazard? ≠ [] → m.world.HasContext m.thread

theorem step_accurate (hm : m.Accurate) (hsound : m.world.Sound m.holdings)
    (hordered : m.world.Ordered)
    (hreceipts : ∀ x ∈ m.world.receipts, x.1 < m.world.nextQueue) : m.step.Accurate := by
  rcases m.step_cases with hsame | ⟨cue, rest, -, hstack, hthread, fs, hstep, htransition⟩
  · rwa [hsame]
  · have hanchored := hm.anchored
    rw [hstack, List.filterMap_append] at hanchored
    have hheld (hcue : cue.frames.filterMap Frame.hazard? ≠ []) : m.world.HasContext m.thread :=
      hanchored (List.append_ne_nil_of_left_ne_nil hcue _)
    rw [holdings, hstack, List.flatMap_append] at hsound
    refine ⟨htransition.tallied hsound hordered hreceipts hheld hm.tallied, fun hhazards => ?_⟩
    rw [hthread]
    by_cases hfs : fs.filterMap Frame.hazard? = []
    · refine htransition.kept World.kept_hasContext (hanchored fun hnone => hhazards ?_)
      rw [hstep, List.filterMap_append, hfs]
      exact (List.append_eq_nil_iff.1 hnone).2
    · exact htransition.anchored hheld hfs

theorem begin_accurate {w : World V} (htallied : w.Tallied) (i : Instruction V) :
    (w.begin i).Accurate := by
  obtain ⟨t, command⟩ := i
  cases command with
  | dropQueue name =>
    unfold World.begin World.start
    dsimp only
    split
    · exact ⟨htallied.same (.of_books rfl), fun h => absurd rfl h⟩
    · refine ⟨fun name₁ q₁ h₁ => ?_, fun h => absurd rfl h⟩
      change (w.queues.erase name).get? name₁ = some q₁ at h₁
      rw [Table.get?_erase] at h₁
      split at h₁
      · cases h₁
      · exact htallied name₁ q₁ h₁
  | perform | exit | atExit | retireNull =>
    exact ⟨htallied.same (.of_books rfl), fun h => absurd rfl h⟩

theorem Reachable.settled (h : m.Reachable) :
    m.world.Ordered ∧ ∃ lost, m.world.Settled m.holdings lost := by
  have hall : m.world.Sound m.holdings ∧ m.world.Ordered ∧
      ∃ lost, m.world.Settled m.holdings lost := by
    refine h.of_effects (P := fun w hs => w.Sound hs ∧ w.Ordered ∧ ∃ lost, w.Settled hs lost) ?_ ?_
    · exact ⟨World.sound_empty, World.ordered_empty, [], World.settled_nil.2 World.matched_empty⟩
    · intro lossy g w hs w' hs' e ⟨hsound, hordered, lost, hsettled⟩
      obtain ⟨more, hmore, -⟩ := e.settled hsound hsettled
      exact ⟨e.sound hsound, e.ordered hsound hordered, _, hmore⟩
  exact hall.2

theorem Reachable.accurate (h : m.Reachable) : m.Accurate := by
  induction h with
  | refl => exact ⟨World.tallied_empty, fun h => absurd rfl h⟩
  | step hn _ ih =>
    obtain ⟨hordered, lost, hsettled⟩ := Reachable.settled hn
    exact step_accurate ih (Reachable.sound hn) hordered
      (World.receipts_bounded hordered hsettled)
  | next i _ _ _ _ ih => exact begin_accurate ih.tallied i

/-- The counters of a queue are exact at every moment, whatever panics there were. -/
theorem Reachable.tallied (h : m.Reachable) : m.world.Tallied := h.accurate.tallied

end Run
end Reclaim
