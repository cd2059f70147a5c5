import Reclaim.Proofs.Ownership
import Reclaim.Proofs.RegistryPeak
import Reclaim.Proofs.ScriptEnds

/-!
The end of a queue. While its chain is freed node by node the destructors of its values run, and
what is left of the chain stays as it is meanwhile (`Effect.cut_kept`). So the nodes that are freed
are those the chain had when the queue was given up, and nothing else is dropped
(`Run.Reaches.dropped_values`).
-/

set_option autoImplicit false

namespace Reclaim
variable {V : Type}

theorem cut_mem {w : World V} {hs : List (Holding V)} {i : QueueId} {s : Option Address}
    (h : .cut i s ∈ hs) : s ∈ (w.census hs).cuts :=
  List.mem_filterMap.2 ⟨_, h, rfl⟩

/-- What is left of a chain stays as it is, as long as no node is freed. -/
theorem Effect.cut_kept {g : Registry} {w w' : World V} {hs hs' : List (Holding V)} {i : QueueId}
    {a : Address} (e : Effect False g w hs w' hs') (hsound : w.Sound hs)
    (hcut : .cut i (some a) ∈ hs) (hfreed : w'.freed = w.freed) :
    .cut i (some a) ∈ hs' ∧ ∀ b ∈ w.memory.nodes.trail (some a),
      w'.memory.nodes.get? b = w.memory.nodes.get? b := by
  have hvalid := hsound.census
  have hlinked (b : Address) (hb : b ∈ w.memory.nodes.trail (some a)) :
      b ∈ (w.census hs).linked :=
    Census.mem_linked (List.mem_append_right _ (cut_mem hcut)) hb
  have hbeside {name : Name} {q : Queue} (hq : w.queues.get? name = some q) {c : Address}
      (hc : c ∈ w.memory.nodes.trail q.head) (n : Node (Payload V)) (b : Address)
      (hb : b ∈ w.memory.nodes.trail (some a)) :
      (w.memory.nodes.insert c n).get? b = w.memory.nodes.get? b := by
    refine Table.get?_insert_of_ne ?_
    rintro rfl
    exact World.trail_not_cut hvalid hq hcut hc hb
  cases e with
  | reorder hp => exact ⟨hp.mem_iff.1 hcut, fun _ _ => rfl⟩
  | lose hfalse => exact hfalse.elim
  | giveUp hfalse => exact hfalse.elim
  | fault hk hlacks => exact absurd hlacks (hsound.not_lacks _ hk)
  | createQueue =>
    exact ⟨hcut, fun b hb => Table.get?_insert_of_ne (hvalid.ne_fresh_of_linked (hlinked b hb))⟩
  | allocate =>
    exact ⟨by simpa using hcut, fun b hb =>
      Table.get?_insert_of_ne (hvalid.ne_fresh_of_linked (hlinked b hb))⟩
  | link name q q' nodes hq hround =>
    obtain ⟨t, last, ht, -, -, rfl, rfl⟩ := Queue.enqueueRound_linked hround
    exact ⟨by simpa using hcut, hbeside hq (World.tail_mem_trail hvalid hq ht) _⟩
  | claimFront name q q' p nodes hq hround =>
    obtain ⟨c, n, hc, -, -, -, rfl, rfl⟩ := Queue.dequeueRound_claimed hround
    exact ⟨by simpa using hcut, hbeside hq (World.head_mem_trail hvalid hq hc) _⟩
  | unlink =>
    rw [World.noteUnlinked_eq]
    exact ⟨by simpa using hcut, fun _ _ => rfl⟩
  | claimDetached name q q' p nodes hq hclaim =>
    obtain ⟨n, -, -, rfl, rfl⟩ := Queue.claim_taken hclaim
    refine ⟨by simpa using hcut, fun b hb => Table.get?_insert_of_ne ?_⟩
    rintro rfl
    exact hvalid.not_mem_loose (hlinked _ hb) (List.mem_cons_self ..)
  | @destroyNode r _ n ho hn =>
    refine ⟨by simpa using hcut, fun b hb => Table.get?_erase_of_ne ?_⟩
    rintro rfl
    refine hsound.not_linked ?_ (hlinked _ hb)
    have hretired := doomed_address_mem hsound.account (List.mem_cons_self ..)
    exact List.mem_append_right _ (List.mem_append_right _ hretired)
  | free => exact absurd hfreed (List.cons_ne_self _ _)
  | discard => exact absurd hcut List.not_mem_nil
  | configure | storeCells | setThread | note | createRecord | condemn | spare | declare | settle
  | scan | abandon | acquire | publish | republish | giveName | takeName | release | enter | depart
  | count | setWaiter | help | begin | findEmpty | missDetached | finish | destroyObject | freed
  | vacant | drop => exact ⟨by simpa using hcut, fun _ _ => rfl⟩

theorem Nodes.values_members (nodes : Nodes (Payload V)) (i : QueueId) (s : Option Address) :
    (nodes.members (i, s)).filterMap (·.value) = (nodes.waiting s).map (·.value) := by
  rw [members, List.filterMap_map, waiting, List.map_filterMap]
  rfl

namespace Run
variable {m : Run V}

theorem Reachable.chain_kept (hm : m.Reachable) (hcalm : m.step.IsCalm)
    (hfreed : m.step.world.freed = m.world.freed) {i : QueueId} {s : Option Address}
    (hframe : .dropChain i s ∈ m.stack) :
    m.step.world.memory.nodes.members (i, s) = m.world.memory.nodes.members (i, s) := by
  cases s with
  | none => rw [Nodes.members_none, Nodes.members_none]
  | some a =>
    have hcut : Holding.cut i (some a) ∈ m.holdings :=
      List.mem_flatMap.2 ⟨_, hframe, List.mem_singleton_self _⟩
    -- No effect takes a node back that was freed, so none of them frees one.
    have hall : m.step.world.Sound m.step.holdings ∧ m.world.freed <:+ m.step.world.freed ∧
        (m.step.world.freed = m.world.freed → .cut i (some a) ∈ m.step.holdings ∧
          m.step.world.memory.nodes.members (i, some a) =
            m.world.memory.nodes.members (i, some a)) := by
      refine (calm_effects hcalm).induct (P := fun w hs => w.Sound hs ∧ m.world.freed <:+ w.freed ∧
        (w.freed = m.world.freed → .cut i (some a) ∈ hs ∧
          w.memory.nodes.members (i, some a) = m.world.memory.nodes.members (i, some a))) ?_
        ⟨hm.sound, List.suffix_rfl, fun _ => ⟨hcut, rfl⟩⟩
      rintro w hs w' hs' e ⟨hsound, hsuffix, hkept⟩
      have hmore : w.freed <:+ w'.freed := e.history_suffix.filterMap _
      refine ⟨e.sound hsound, hsuffix.trans hmore, fun hnow => ?_⟩
      have hsame : w.freed = m.world.freed :=
        ((hnow ▸ hmore).sublist.antisymm hsuffix.sublist)
      obtain ⟨hin, hmembers⟩ := hkept hsame
      obtain ⟨hstays, hcells⟩ := e.cut_kept hsound hin (hnow.trans hsame.symm)
      have hstart : some a ∈ (w.census hs).starts :=
        List.mem_append_right _ (cut_mem hin)
      exact ⟨hstays, (Nodes.members_congr (hsound.census.trail_path hstart) hcells).trans hmembers⟩
    exact (hall.2.2 hfreed).2

/-- One more node of a chain is freed, with the value that is in it, or nothing is left of it. -/
theorem Reachable.chain_step (hm : m.Reachable) {base : List (Frame V)} {i : QueueId}
    {s : Option Address} (hstack : m.stack = .dropChain i s :: base)
    (hcontrol : m.control = .resume) :
    m.step.control = .resume ∧
      ((m.world.memory.nodes.members (i, s) = [] ∧ m.step.stack = base ∧
        m.step.world.freed = m.world.freed) ∨
      ∃ x next, m.world.memory.nodes.members (i, s) =
          x :: m.step.world.memory.nodes.members (i, next) ∧
        m.step.world.freed = x :: m.world.freed ∧
        (m.step.stack = .dropChain i next :: base ∨
          ∃ acts, m.step.stack = .script acts :: .dropChain i next :: base)) := by
  have hstep : m.step = dropChain { m with stack := base, control := .resume } i s :=
    step_of_resume hstack hcontrol
  cases s with
  | none =>
    rw [hstep]
    exact ⟨rfl, .inl ⟨Nodes.members_none, rfl, rfl⟩⟩
  | some a =>
    have hcut : Holding.cut i (some a) ∈ m.holdings := by
      rw [holdings, hstack]
      exact List.mem_append_left _ (List.mem_singleton_self _)
    have hstart : some a ∈ (m.world.census m.holdings).starts :=
      List.mem_append_right _ (cut_mem hcut)
    have hpath := hm.sound.census.trail_path hstart
    obtain ⟨n, hn⟩ := Option.ne_none_iff_exists'.1 (hm.sound.not_lacks _ hcut)
    unfold dropChain at hstep
    simp only [hn] at hstep
    obtain ⟨hresumed, hmemory, hfreed, hgoes⟩ := dropSlot_cases
      (((push { m with stack := base, control := .resume } (.dropChain i n.next)).eraseNode a).emit
        (.nodeFreed i a (n.slot.value?.map (·.value)))) n.slot
    rw [hstep]
    refine ⟨hresumed, .inr ⟨_, n.next, ?_, hfreed, hgoes⟩⟩
    refine (Nodes.members_cons hpath hn).trans (congrArg (_ :: ·) ?_)
    exact (Nodes.members_erase hpath hn).symm.trans
      (congrArg (fun memory => memory.nodes.members (i, n.next)) hmemory).symm

/-- A chain is freed node by node, and then the work below goes on. -/
theorem Reachable.chain_dropped (hm : m.Reachable) (hcalm : ∀ k, (m.complete k).IsCalm)
    (hends : m.ScriptsEnd) {base : List (Frame V)} {i : QueueId} {ms : List (Member V)}
    {s : Option Address} {k : Nat} (hcontrol : (m.complete k).control = .resume)
    (hstack : (m.complete k).stack = .dropChain i s :: base)
    (hms : (m.complete k).world.memory.nodes.members (i, s) = ms) :
    ∃ j, (m.complete j).control = .resume ∧ (m.complete j).stack = base ∧
      (m.complete j).world.freed = ms.reverse ++ (m.complete k).world.freed := by
  induction ms generalizing s k with
  | nil =>
    obtain ⟨hresumed, ⟨-, hbase, hfreed⟩ | ⟨x, next, hcons, -, -⟩⟩ :=
      (hm.complete k).chain_step hstack hcontrol
    · rw [← complete_succ] at hresumed hbase hfreed
      exact ⟨k + 1, hresumed, hbase, hfreed⟩
    · rw [hms] at hcons
      cases hcons
  | cons x ms ih =>
    obtain ⟨hresumed, ⟨hnil, -, -⟩ | ⟨x', next, hcons, hfreed, hgoes⟩⟩ :=
      (hm.complete k).chain_step hstack hcontrol
    · rw [hms] at hnil
      cases hnil
    · obtain ⟨rfl, hrest⟩ := List.cons.inj (hms.symm.trans hcons)
      rw [← complete_succ] at hresumed hrest hfreed hgoes
      have hgoal : ∃ i₁, (m.complete i₁).control = .resume ∧
          (m.complete i₁).stack = .dropChain i next :: base ∧
          (m.complete i₁).world.freed = x :: (m.complete k).world.freed ∧
          (m.complete i₁).world.memory.nodes.members (i, next) = ms := by
        rcases hgoes with hgoes | ⟨acts, hgoes⟩
        · exact ⟨k + 1, hresumed, hgoes, hfreed, hrest.symm⟩
        · refine script_left hcalm (P := fun n => n.world.freed = x :: (m.complete k).world.freed ∧
            n.world.memory.nodes.members (i, next) = ms) (fun j habove ⟨hj, hmembers⟩ => ?_)
            hends hgoes ⟨hfreed, hrest.symm⟩
          have hsame := (habove.world_confined script_plain).freed
          refine ⟨hsame.trans hj, ?_⟩
          refine ((hm.complete j).chain_kept ?_ hsame ?_).trans hmembers
          · rw [← complete_succ]
            exact hcalm (j + 1)
          · obtain ⟨fs, f, hfs, -⟩ := habove
            rw [hfs]
            exact List.mem_append_right _ (List.mem_cons_of_mem _ (List.mem_cons_self ..))
      obtain ⟨i₁, hcontrol₁, hstack₁, hfreed₁, hms₁⟩ := hgoal
      obtain ⟨j, hj, hbase, hall⟩ := ih hcontrol₁ hstack₁ hms₁
      refine ⟨j, hj, hbase, ?_⟩
      rw [hall, hfreed₁, List.reverse_cons, List.append_assoc]
      rfl

theorem begin_dropQueue {w : World V} {name : Name} {q : Queue} (hq : w.queues.get? name = some q)
    (t : ThreadId) :
    w.begin ⟨t, .dropQueue name⟩ =
      { world := { w.enrol t with queues := w.queues.erase name }, thread := t,
        stack := [.dropChain q.id q.head, .answering .done], control := .resume } := by
  have hq' : (w.enrol t).queues.get? name = some q := hq
  unfold World.begin World.start
  simp only [hq']
  rfl

/-- The end of a queue drops the values that wait in it, and nothing else. -/
theorem Reaches.dropped_values (h : Reaches IsCalm idle m) (ho : m.outcome.isSome = true)
    {name : Name} {q : Queue} (hq : m.world.queues.get? name = some q) {t : ThreadId}
    (hphase : (m.world.thread t).phase ≠ .exited)
    (hcalm : ∀ k, ((m.world.begin ⟨t, .dropQueue name⟩).complete k).IsCalm)
    (hends : (m.world.begin ⟨t, .dropQueue name⟩).ScriptsEnd) :
    ∃ k vs, (m.after ⟨t, .dropQueue name⟩ k).outcome = some (.ok .done) ∧
      (m.after ⟨t, .dropQueue name⟩ k).world.drops = vs ++ m.world.drops ∧
      vs.Perm (m.world.queued q) := by
  have hstart := begin_dropQueue hq t
  have hcalmly (k : Nat) : Reaches IsCalm idle (m.after ⟨t, .dropQueue name⟩ k) :=
    h.after _ k ho hphase fun j _ => hcalm j
  have hbegun : (m.world.begin ⟨t, .dropQueue name⟩).Reachable := (hcalmly 0).reachable
  obtain ⟨j, hcontrol, hstack, hfreed⟩ := hbegun.chain_dropped (k := 0) hcalm hends
    (congrArg Run.control hstart) (congrArg Run.stack hstart) rfl
  have hlast : m.after ⟨t, .dropQueue name⟩ (j + 1) =
      { m.after ⟨t, .dropQueue name⟩ j with stack := [], control := .answer .done } := by
    rw [Run.after, complete_succ, step_of_resume hstack hcontrol]
    rfl
  have hhistory : m.world.history <:+ (m.after ⟨t, .dropQueue name⟩ (j + 1)).world.history :=
    Reaches.history_suffix (P := fun _ => True)
      (.after (.refl trivial) _ _ ho hphase fun _ _ => trivial)
  obtain ⟨new, hnew⟩ := hhistory
  have hdrops : (m.after ⟨t, .dropQueue name⟩ (j + 1)).world.drops =
      new.filterMap Event.dropped? ++ m.world.drops := by
    rw [World.drops, ← hnew, List.filterMap_append]
    rfl
  refine ⟨j + 1, _, by rw [hlast]; rfl, hdrops, ?_⟩
  have hafter := (hcalmly (j + 1)).disposed
  have hall : (m.after ⟨t, .dropQueue name⟩ (j + 1)).world.freed =
      (m.world.memory.nodes.members (q.id, q.head)).reverse ++ m.world.freed := by
    rw [hlast]
    refine hfreed.trans ?_
    rw [Run.complete, hstart]
    rfl
  rw [hall, hdrops, List.filterMap_append] at hafter
  have hnodes := (List.perm_append_right_iff _).1
    (hafter.symm.trans (h.disposed.append_left _))
  rw [World.queued, ← Nodes.values_members]
  exact hnodes.trans ((List.reverse_perm _).filterMap _)

end Run
end Reclaim
