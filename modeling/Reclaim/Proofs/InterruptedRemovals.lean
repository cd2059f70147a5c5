import Reclaim.Proofs.QueueCounters
import Reclaim.Proofs.Unwinding

/-!
What a panic costs a queue. An attempt to remove a value unlinks its node first and claims the value
after the node is retired, and a retirement may run destructors. A panic of one of them ends the
attempt in between: the value has left the chain, it is not counted as removed, and no attempt gives
it back. These are the only values that are lost, and by so much the length of the queue exceeds the
number of values that wait in it from then on.
-/

set_option autoImplicit false

namespace Reclaim
variable {V : Type}

def Frame.call? : Frame V → Option CallId
  | .dequeue { stage := .round c _, .. } => some c
  | .dequeue { stage := .unlinked c _ _, .. } => some c
  | _ => none

theorem Frame.call_holdings (f : Frame V) :
    f.holdings.filterMap Holding.call? = f.call?.toList := by
  cases f with
  | enqueue e => obtain ⟨_, _ | _, _, _, _⟩ := e <;> rfl
  | dequeue d => obtain ⟨_, _ | _ | _, _⟩ := d <;> rfl
  | reclaim rest => exact Holding.filterMap_map_eq_nil .doomed _ (fun _ => rfl) rest
  | abandonRest bag => exact Holding.filterMap_map_eq_nil .unbagged _ (fun _ => rfl) bag.records
  | script | acting | answering | dropChain | leave | finishExit => rfl

namespace World
variable {w w' : World V}

theorem call_mem_of_receipt {x : QueueId × CallId × V} (hx : x ∈ w.receipts) :
    x.2.1 ∈ w.returnedCalls := by
  obtain ⟨e, he, hex⟩ := List.mem_filterMap.1 hx
  cases e with
  | returned i c v =>
    obtain ⟨v, rfl, rfl⟩ := Option.map_eq_some_iff.1 hex
    exact List.mem_filterMap.2 ⟨_, he, rfl⟩
  | _ => cases hex

theorem length_removedIn (w : World V) (i : QueueId) :
    (removedIn i w.history).length = w.removals.countP (·.1 = i) := by
  rw [removedIn, List.length_reverse, removals, List.countP_filterMap,
    List.length_filterMap_eq_countP]
  refine List.countP_congr fun e _ => ?_
  cases e with
  | removed j c a v => by_cases h : j = i <;> simp [Event.removed?, Event.removal?, h]
  | _ => simp [Event.removed?, Event.removal?]

end World

namespace Run
variable {m n : Run V} {p : Panic} {fs rest : List (Frame V)}

/-- The attempt has not returned, and is not under way either. -/
def brokeOff (m : Run V) (c : CallId) : Bool :=
  c ∉ m.world.returnedCalls ++ m.stack.filterMap Frame.call?

def forfeits (m : Run V) : List (QueueId × CallId × V) :=
  m.world.removals.filter fun x => m.brokeOff x.2.1

theorem calls_eq (m : Run V) :
    m.holdings.filterMap Holding.call? = m.stack.filterMap Frame.call? :=
  filterMap_holdings Frame.call_holdings m

theorem forfeits_perm {lost : List (QueueId × CallId × V)}
    (h : m.world.Settled m.holdings lost) : m.forfeits.Perm lost := by
  have hover : lost.filter (fun x => m.brokeOff x.2.1) = lost := by
    refine List.filter_eq_self.2 fun x hx => decide_eq_true ?_
    rw [← calls_eq]
    exact (h.ended x hx).2
  have hnone : (m.world.receipts ++ m.interruptions).filter (fun x => m.brokeOff x.2.1) = [] := by
    refine List.filter_eq_nil_iff.2 fun x hx hnot => of_decide_eq_true hnot (List.mem_append.2 ?_)
    rcases List.mem_append.1 hx with hx | hx
    · exact .inl (World.call_mem_of_receipt hx)
    · rw [← calls_eq]
      exact .inr (m.interrupted_calls.subset (List.mem_map_of_mem hx))
  have hvalues := h.values
  rw [← interruptions_eq] at hvalues
  have hall := hvalues.filter (fun x => m.brokeOff x.2.1)
  rwa [List.filter_append, hover, hnone, List.append_nil] at hall

/-- A value that was removed was returned, or waits with the attempt that removed it, or is lost. -/
theorem Reachable.removals_perm (h : m.Reachable) :
    m.world.removals.Perm (m.forfeits ++ (m.world.receipts ++ m.interruptions)) := by
  obtain ⟨-, lost, hsettled⟩ := h.settled
  have hvalues := hsettled.values
  rw [← interruptions_eq] at hvalues
  exact hvalues.trans ((forfeits_perm hsettled).symm.append_right _)

/-- The counters of a queue against what was inserted and removed. -/
theorem Reachable.counters_eq (h : m.Reachable) {name : Name} {q : Queue}
    (hq : m.world.queues.get? name = some q)
    (hfew : (linkedIn q.id m.world.history).length < UInt64.size) :
    q.inserted.toNat = (linkedIn q.id m.world.history).length ∧
      q.removed.toNat + (m.interruptions.countP (·.1 = q.id) +
        m.forfeits.countP (·.1 = q.id)) = (removedIn q.id m.world.history).length := by
  obtain ⟨hinserted, hremoved⟩ := h.tallied name q hq
  have hremovals := h.removals_perm.countP_eq (·.1 = q.id)
  rw [List.countP_append, List.countP_append, ← World.length_removedIn] at hremovals
  have hlength := congrArg List.length (h.settled.1.order name q hq)
  rw [List.length_append] at hlength
  rw [hinserted, hremoved, UInt64.toNat_ofNat_of_lt' hfew,
    UInt64.toNat_ofNat_of_lt' (by omega)]
  omega

/-- The length of a queue counts, besides the values that wait in it, those that suspended attempts
have unlinked and those that are lost. -/
theorem Reachable.size_eq (h : m.Reachable) {name : Name} {q : Queue}
    (hq : m.world.queues.get? name = some q)
    (hfew : (linkedIn q.id m.world.history).length < UInt64.size) :
    ∃ ps, q.values m.world.memory.nodes = some ps ∧
      linkedIn q.id m.world.history = removedIn q.id m.world.history ++ ps.map (·.value) ∧
      q.size = ps.length + m.interruptions.countP (·.1 = q.id) +
        m.forfeits.countP (·.1 = q.id) := by
  have horder := h.settled.1.order name q hq
  refine ⟨_, (World.trail_path h.sound.census hq).values_eq, horder, ?_⟩
  obtain ⟨hinserted, hremoved⟩ := h.counters_eq hq hfew
  have hlength := congrArg List.length horder
  rw [List.length_append, World.queued, List.length_map] at hlength
  rw [Queue.size]
  omega

/-- What was lost once stays lost. -/
theorem Reachable.forfeits_subperm {Q : Run V → Prop} (h : m.Reachable) (hn : Reaches Q m n) :
    m.forfeits.Subperm n.forfeits := by
  obtain ⟨-, lost, hsettled⟩ := h.settled
  have hlater : n.world.Sound n.holdings ∧ ∃ more, n.world.Settled n.holdings (more ++ lost) := by
    refine hn.keeps (P := fun w hs => w.Sound hs ∧ ∃ more, w.Settled hs (more ++ lost)) ?_
      ⟨h.sound, [], hsettled⟩
    intro lossy g w hs w' hs' e ⟨hsound, more, hmore⟩
    obtain ⟨most, hmost, -⟩ := e.settled hsound hmore
    rw [← List.append_assoc] at hmost
    exact ⟨e.sound hsound, _, hmost⟩
  obtain ⟨-, more, hmore⟩ := hlater
  have hsub : lost.Sublist (more ++ lost) := List.sublist_append_right _ _
  exact ((forfeits_perm hsettled).subperm.trans hsub.subperm).trans
    (forfeits_perm hmore).symm.subperm

theorem interruption_released {w : World V} (hw : m.world.Released w) (t : ThreadId)
    (stack : List (Frame V)) (c : Control V) (f : Frame V) :
    interruption ⟨w, t, stack, c⟩ f = m.interruption f := by
  unfold interruption
  split
  · dsimp only
    rw [hw.queues, hw.memory]
  · rfl

/-- A panic that leaves through suspended work loses, of the values in queues, those that attempts
among this work had unlinked and not claimed yet, and no others. Whatever happens afterwards they
stay lost and keep being counted: a queue is longer than what waits in it by just these values and
by those that suspended attempts have unlinked. -/
theorem Reachable.interruptions_lost (h : m.Reachable) (hc : m.control = .unwind p)
    (hstack : m.stack = fs ++ rest) (hfs : ∀ f ∈ fs, m.catches f = false) :
    (m.complete fs.length).control = .unwind p ∧ (m.complete fs.length).stack = rest ∧
      (m.complete fs.length).world.queues = m.world.queues ∧
      (m.complete fs.length).world.memory = m.world.memory ∧
      (m.complete fs.length).forfeits.Perm (fs.filterMap m.interruption ++ m.forfeits) ∧
      ∀ n : Run V, Reaches (fun _ => True) (m.complete fs.length) n →
        (m.complete fs.length).forfeits.Subperm n.forfeits ∧
        n.world.removals.Perm (n.forfeits ++ (n.world.receipts ++ n.interruptions)) ∧
        ∀ name q, n.world.queues.get? name = some q →
          (linkedIn q.id n.world.history).length < UInt64.size →
            ∃ ps, q.values n.world.memory.nodes = some ps ∧
              linkedIn q.id n.world.history =
                removedIn q.id n.world.history ++ ps.map (·.value) ∧
              q.size = ps.length + n.interruptions.countP (·.1 = q.id) +
                n.forfeits.countP (·.1 = q.id) := by
  have hreach := h.complete fs.length
  have hlost (n : Run V) (hn : Reaches (fun _ => True) (m.complete fs.length) n) :=
    hreach.forfeits_subperm hn
  obtain ⟨w, hw, hend⟩ := complete_unwind hc hstack hfs
  rw [hend] at hreach hlost ⊢
  refine ⟨rfl, rfl, hw.queues, hw.memory, ?_, fun n hn => ?_⟩
  · have hbefore := h.removals_perm
    have hafter := hreach.removals_perm
    have hremovals : w.removals = m.world.removals := hw.filterMap_history fun _ => rfl
    have hreceipts : w.receipts = m.world.receipts := hw.filterMap_history fun _ => rfl
    have hsuspended : interruptions ⟨w, m.thread, rest, .unwind p⟩ =
        rest.filterMap m.interruption :=
      List.filterMap_congr fun f _ => interruption_released hw m.thread rest _ f
    rw [hsuspended, hremovals, hreceipts] at hafter
    rw [interruptions, hstack, List.filterMap_append] at hbefore
    classical
    refine List.perm_iff_count.2 fun x => ?_
    have hcount := (hafter.symm.trans hbefore).count_eq x
    simp only [List.count_append] at hcount ⊢
    omega
  · have hnow : n.Reachable := Reaches.trans hreach hn
    exact ⟨hlost n hn, hnow.removals_perm, fun name q hq hfew => hnow.size_eq hq hfew⟩

/-- A removal has unlinked the first of two values, and the destructor of a record that is reclaimed
meanwhile has panicked. -/
def brokenRemoval : Run Nat := idle.following
  (tell 0 12 [.install { minRecords := some 3 }, .createQueue "queue" .yield,
    .onQueue "queue" (.enqueue 1 []), .onQueue "queue" (.enqueue 2 []),
    .create "record" [⟨none, .panic "boom"⟩], .retire "record" .boxed] ++
  tell 0 9 [.onQueue "queue" .tryDequeue])

theorem brokenRemoval_reachable : brokenRemoval.Reachable :=
  .following (.refl trivial) _ (by decide +kernel)

def drained : Run Nat := (brokenRemoval.complete 3).following
  (tell 0 12 [.onQueue "queue" .tryDequeue, .onQueue "queue" .tryDequeue])

theorem drained_reaches : Reaches (fun _ => True) (brokenRemoval.complete 3) drained :=
  .following (.refl trivial) _ (by decide +kernel)

/-- Two values were inserted, one was returned, and the next removal found nothing; yet the empty
queue still has the length one. -/
theorem drained_mislays :
    drained.Reachable ∧ drained.outcome.isSome = true ∧ drained.IsCalm ∧
      linkedIn 0 drained.world.history = [1, 2] ∧ drained.world.receipts = [(0, 1, 2)] ∧
      drained.world.returnedCalls = [2, 1] ∧ drained.interruptions = [] ∧
      (drained.world.queues.get? "queue").map (·.id) = some 0 ∧
      (drained.world.queues.get? "queue").bind (fun q =>
        (q.values drained.world.memory.nodes).map (·.map (·.value))) = some [] ∧
      (drained.world.queues.get? "queue").map (·.size) = some 1 := by
  refine ⟨Reaches.trans (brokenRemoval_reachable.complete 3) drained_reaches, ?_⟩
  decide +kernel

theorem brokenRemoval_lost :
    brokenRemoval.Reachable ∧ (∃ p, brokenRemoval.control = .unwind p) ∧
      (∀ f ∈ brokenRemoval.stack, brokenRemoval.catches f = false) ∧
      brokenRemoval.interruptions = [(0, 0, 1)] ∧
      (brokenRemoval.complete brokenRemoval.stack.length).forfeits = [(0, 0, 1)] ∧
      [(0, 0, 1)].Subperm drained.forfeits ∧
      ∃ q, drained.world.queues.get? "queue" = some q ∧ q.size = 1 := by
  obtain ⟨p, hp⟩ := exists_unwind (show ¬ brokenRemoval.IsCalm by decide +kernel)
  have hfs : ∀ f ∈ brokenRemoval.stack, brokenRemoval.catches f = false := by decide +kernel
  have hsuspended : brokenRemoval.interruptions = [(0, 0, 1)] := by decide +kernel
  have hbefore : brokenRemoval.forfeits = [] := by decide +kernel
  have hlength : brokenRemoval.stack.length = 3 := by decide +kernel
  obtain ⟨-, -, -, -, hforfeits, hlater⟩ :=
    brokenRemoval_reachable.interruptions_lost hp (List.append_nil _).symm hfs
  rw [hbefore, List.append_nil] at hforfeits
  have hnow := List.perm_singleton.1 (hforfeits.trans (.of_eq hsuspended))
  obtain ⟨hsub, -, hsize⟩ := hlater drained (hlength ▸ drained_reaches)
  rw [hnow] at hsub
  refine ⟨brokenRemoval_reachable, ⟨p, hp⟩, hfs, hsuspended, hnow, hsub, ?_⟩
  have hthere : (drained.world.queues.get? "queue").isSome = true := by decide +kernel
  obtain ⟨q, hq⟩ := Option.isSome_iff_exists.1 hthere
  have hid : q.id = 0 := by
    have hmap : (drained.world.queues.get? "queue").map (·.id) = some 0 := by decide +kernel
    rw [hq] at hmap
    exact Option.some.inj hmap
  have hlinked : linkedIn 0 drained.world.history = [1, 2] := by decide +kernel
  have hremoved : removedIn 0 drained.world.history = [1, 2] := by decide +kernel
  have hidle : drained.interruptions = [] := by decide +kernel
  have hlost : drained.forfeits = [(0, 0, 1)] := by decide +kernel
  have hwaiting := hsize "queue" q hq
  rw [hid, hlinked, hremoved, hidle, hlost] at hwaiting
  obtain ⟨ps, -, horder, heq⟩ := hwaiting (by decide)
  obtain rfl : ps = [] := List.map_eq_nil_iff.1 (List.self_eq_append_right.1 horder)
  exact ⟨q, hq, heq⟩

end Run
end Reclaim
