import Reclaim.Proofs.RecordMoves
import Reclaim.Proofs.RemovalAttempts

/-!
How many rounds an attempt to remove a value makes. A round ends the attempt, or it unlinks a node;
and the attempt goes on after that only if the value of the node was claimed before. Only the first
node of a chain can be like that (`World.Filled`), and once it is gone another attempt has to claim
the value of the next one in its place. So every round but two is paid for by a value that another
attempt gets meanwhile (`World.RoundsPaid`, `Run.Reachable.rounds_bounded`).
-/

set_option autoImplicit false

namespace Reclaim
variable {V : Type}

namespace DequeueRound

def isUncontested : DequeueRound V → Bool
  | claimed _ _ _ | empty | unlinked _ _ => true
  | _ => false

def node? : DequeueRound V → Option Address
  | unlinked a _ => some a
  | _ => none

theorem eq_of_isUncontested {r : DequeueRound V} (h : r.isUncontested = true) :
    (∃ v q nodes, r = claimed v q nodes) ∨ r = empty ∨ ∃ a q, r = unlinked a q := by
  cases r with
  | claimed v q nodes => exact .inl ⟨v, q, nodes, rfl⟩
  | empty => exact .inr (.inl rfl)
  | unlinked a q => exact .inr (.inr ⟨a, q, rfl⟩)
  | _ => cases h

end DequeueRound

namespace Holding

def receipt? : Holding V → Option (QueueId × CallId × V)
  | closing i c v => v.map fun v => (i, c, v)
  | _ => none

def attempt? : Holding V → Option (Name × CallId)
  | call name c | detached name c _ _ => some (name, c)
  | _ => none

theorem call_of_attempt {k : Holding V} {name : Name} {c : CallId}
    (h : k.attempt? = some (name, c)) : k.call? = some c := by
  cases k with
  | call | detached =>
    obtain ⟨-, rfl⟩ := Prod.mk.inj (Option.some.inj h)
    rfl
  | _ => cases h

end Holding

namespace World

def earned (w : World V) (hs : List (Holding V)) : List (QueueId × CallId × V) :=
  w.receipts ++ hs.filterMap Holding.receipt?

/-- How many values of the queue other attempts than this one have got. -/
def gains (w : World V) (hs : List (Holding V)) (i : QueueId) (c : CallId) : Nat :=
  (w.earned hs).countP fun x => x.1 = i ∧ x.2.1 ≠ c

def Spent (w : World V) (i : QueueId) : Prop :=
  ∃ name q, w.queues.get? name = some q ∧ q.id = i ∧ q.head.bind w.memory.nodes.value? = none

def Decided (w : World V) (c : CallId) : Prop :=
  c ∈ w.removals.map (·.2.1) ∨ c ∈ w.returnedCalls

/-- The attempt `c` on the queue `i` has made `n` rounds, those counted that the values which others
had got before would have paid for. It makes two rounds besides, one at its end and one that unlinks
the spent node it has found at its beginning: as long as it is not decided the first is still to
come, and while the first node is spent both are. -/
structure RoundsPaid (w : World V) (hs : List (Holding V)) (i : QueueId) (c : CallId) (n : Nat) :
    Prop where
  begun : c < w.nextCall
  known : i < w.nextQueue
  place : ∀ name, (name, c) ∈ hs.filterMap Holding.attempt? → w.queueId? name = some i
  bounded : n ≤ w.gains hs i c + 2
  early : w.Decided c ∨
    n ≤ w.gains hs i c + 1 ∧ (w.Spent i → n ≤ w.gains hs i c)

theorem receipts_noteUnlinked (w : World V) (i : QueueId) (c : CallId) (a : Address) :
    (w.noteUnlinked i c a).receipts = w.receipts := by
  unfold noteUnlinked
  split <;> rfl

theorem decided_of_suffix {w w' : World V} {c : CallId} (h : w.history <:+ w'.history)
    (hc : w.Decided c) : w'.Decided c :=
  hc.imp (fun hmem => ((h.sublist.filterMap _).map _).subset hmem)
    fun hmem => (h.sublist.filterMap _).subset hmem

end World

namespace Effect
variable {lossy : Prop} {g : Registry} {w w' : World V} {hs hs' : List (Holding V)} {i : QueueId}
  {c : CallId}

theorem counters_le (e : Effect lossy g w hs w' hs') :
    w.nextCall ≤ w'.nextCall ∧ w.nextQueue ≤ w'.nextQueue := by
  cases e with
  | begin => exact ⟨Nat.le_succ _, Nat.le_refl _⟩
  | createQueue => exact ⟨Nat.le_refl _, Nat.le_succ _⟩
  | unlink =>
    rw [World.noteUnlinked_eq]
    exact ⟨Nat.le_refl _, Nat.le_refl _⟩
  | _ => exact ⟨Nat.le_refl _, Nat.le_refl _⟩

/-- What attempts have got they keep. -/
theorem earned_subperm (e : Effect False g w hs w' hs') (hsound : w.Sound hs) :
    (w.earned hs).Subperm (w'.earned hs') := by
  cases e with
  | reorder hp => exact ((hp.filterMap _).append_left _).subperm
  | lose hl | giveUp hl => exact hl.elim
  | fault hk hlacks => exact absurd hlacks (hsound.not_lacks _ hk)
  | note e he => cases e <;> first | exact .refl _ | cases he
  | scan rs ds ls t s =>
    refine (List.Perm.append_left _ (.of_eq ?_)).subperm
    exact (Holding.filterMap_scan _ (fun _ => rfl) (fun _ => rfl) rs ds ls _).symm
  | abandon b =>
    refine (List.Perm.append_left _ (.of_eq ?_)).subperm
    exact Holding.filterMap_map_append .unbagged _ (fun _ => rfl) _ _
  | unlink =>
    rw [World.earned, World.earned, World.receipts_noteUnlinked]
    exact .refl _
  | claimFront | claimDetached =>
    exact ((List.sublist_cons_self _ _).append_left _).subperm
  | @finish i c v hs =>
    cases v with
    | none => exact .refl _
    | some v => exact List.perm_middle.subperm
  | _ => exact .refl _

/-- An attempt goes on with the same queue. -/
theorem attempt_place (e : Effect lossy g w hs w' hs') (hc : c < w.nextCall)
    (h : ∀ name, (name, c) ∈ hs.filterMap Holding.attempt? → w.queueId? name = some i) {name : Name}
    (hname : (name, c) ∈ hs'.filterMap Holding.attempt?) : w'.queueId? name = some i := by
  have hset {name₀ : Name} {q q' : Queue} (hq : w.queues.get? name₀ = some q) (hid : q'.id = q.id)
      (hmem : (name, c) ∈ hs.filterMap Holding.attempt?) :
      ((w.queues.insert name₀ q').get? name).map (·.id) = some i :=
    (World.ids_insert hq q' hid name).trans (h name hmem)
  cases e with
  | reorder hp => exact h name ((hp.filterMap _).mem_iff.2 hname)
  | lose => exact h name (((List.sublist_cons_self _ _).filterMap _).subset hname)
  | fault _ _ hsub => exact h name ((hsub.filterMap _).subset hname)
  | createQueue name₀ strategy hnew =>
    have hid := h name hname
    refine (congrArg (Option.map Queue.id) (Table.get?_insert_of_ne ?_)).trans hid
    rintro rfl
    simp [World.queueId?, hnew] at hid
  | scan rs ds ls t s =>
    rw [Holding.filterMap_scan _ (fun _ => rfl) (fun _ => rfl) rs ds ls] at hname
    exact h name hname
  | abandon b =>
    refine h name ?_
    rwa [Holding.filterMap_map_append .unbagged _ fun _ => rfl]
  | link name₀ q q' nodes hq hround =>
    obtain ⟨_, _, _, _, _, rfl, _⟩ := Queue.enqueueRound_linked hround
    exact hset hq rfl hname
  | count =>
    refine Eq.trans ?_ (h name hname)
    refine (congrArg (Option.map Queue.id) (Table.get?_modify ..)).trans ?_
    split
    · rw [Option.map_map]
      rfl
    · rfl
  | setWaiter name₀ q waiter hq => exact hset hq rfl hname
  | help name₀ q t next last hq =>
    refine hset hq ?_ hname
    unfold Queue.advanceTail
    split <;> rfl
  | begin name₀ =>
    rcases List.mem_cons.1 hname with heq | hname
    · obtain ⟨-, rfl⟩ := Prod.mk.inj heq
      exact absurd hc (Nat.lt_irrefl _)
    · exact h name hname
  | claimFront name₀ q q' p nodes hq hround =>
    obtain ⟨_, _, _, _, _, _, rfl, _⟩ := Queue.dequeueRound_claimed hround
    exact hset hq rfl (List.mem_cons_of_mem _ hname)
  | unlink name₀ q q' a hq hround =>
    obtain ⟨_, _, _, _, _, _, rfl⟩ := Queue.dequeueRound_unlinked hround
    rw [World.noteUnlinked_eq]
    exact hset hq rfl hname
  | claimDetached name₀ q q' p nodes hq hclaim =>
    obtain ⟨_, _, _, rfl, _⟩ := Queue.claim_taken hclaim
    exact hset hq rfl (List.mem_cons_of_mem _ hname)
  | findEmpty | giveUp => exact h name (List.mem_cons_of_mem _ hname)
  | discard => cases hname
  | _ => exact h name hname

/-- The first node of a queue becomes spent only if an attempt gets its value. -/
theorem spent (e : Effect lossy g w hs w' hs') (hsound : w.Sound hs) (hfilled : w.Filled)
    (h : w'.Spent i) :
    w.Spent i ∨ i = w.nextQueue ∨ ∃ c v, (i, c, v) ∈ w'.removals ∧
      (w'.earned hs').Perm ((i, c, v) :: w.earned hs) := by
  obtain ⟨name, q', hq', rfl, hnone⟩ := h
  cases e.chained hsound hq' with
  | kept q hq hid hhead hsame =>
    refine .inl ⟨name, q, hq, hid.symm, ?_⟩
    rw [hhead] at hnone
    cases ha : q.head with
    | none => rfl
    | some a =>
      rw [ha] at hnone
      refine Eq.trans ?_ hnone
      change w.memory.nodes.value? a = w'.memory.nodes.value? a
      rw [Nodes.value?, Nodes.value?, hsame a (World.head_mem_trail hsound.census hq ha)]
  | created a n hid => exact .inr (.inl hid)
  | linked q l t a last p hq hid hhead _ hlast _ _ hnodes =>
    refine .inl ⟨name, q, hq, hid.symm, ?_⟩
    rw [hhead, hnodes] at hnone
    rwa [funext (Nodes.value?_setNext hlast (some a))] at hnone
  | claimed q a n c v h₀ ks hq hid _ _ _ hheld hclosing hhistory =>
    refine .inr (.inr ⟨c, v, ?_, ?_⟩)
    · rw [hid, World.removals, hhistory]
      exact List.mem_cons_self ..
    · rw [World.earned, World.receipts, hhistory, hclosing, hheld, hid]
      exact List.perm_middle
  | unlinked q a next n hq _ ha hn hnext hhead hnodes =>
    have hpath := World.trail_path hsound.census hq
    have hrest := hfilled name q hq
    rw [ha] at hpath hrest
    rw [hhead, hnodes] at hnone
    exact absurd hnone (hrest.value_next hpath hn hnext)

theorem roundsPaid {n : Nat} (e : Effect False g w hs w' hs') (hsound : w.Sound hs)
    (hfilled : w.Filled) (h : w.RoundsPaid hs i c n) : w'.RoundsPaid hs' i c n := by
  have hcounters := e.counters_le
  have hmore : w.gains hs i c ≤ w'.gains hs' i c := (e.earned_subperm hsound).countP_le _
  refine ⟨Nat.lt_of_lt_of_le h.begun hcounters.1, Nat.lt_of_lt_of_le h.known hcounters.2,
    fun name => e.attempt_place h.begun h.place, Nat.le_trans h.bounded (by omega), ?_⟩
  rcases h.early with hdecided | ⟨hle, hspent⟩
  · exact .inl (World.decided_of_suffix e.history_suffix hdecided)
  · by_cases hspent' : w'.Spent i
    · rcases e.spent hsound hfilled hspent' with hbefore | rfl | ⟨c', v, hremoved, hearned⟩
      · exact .inr ⟨by omega, fun _ => Nat.le_trans (hspent hbefore) hmore⟩
      · exact absurd h.known (Nat.lt_irrefl _)
      · by_cases hc : c' = c
        · exact .inl (.inl (hc ▸ List.mem_map_of_mem hremoved))
        · have htaken : w'.gains hs' i c = w.gains hs i c + 1 := by
            rw [World.gains, hearned.countP_eq, List.countP_cons_of_pos (by simp [hc])]
            rfl
          exact .inr ⟨by omega, fun _ => by omega⟩
    · exact .inr ⟨by omega, fun hnow => absurd hnow hspent'⟩

end Effect

namespace World
variable {w w' : World V} {hs : List (Holding V)} {name : Name} {q q' : Queue} {a : Address}
  {c : CallId}

/-- An attempt in the midst of its rounds has no value yet and is not over. -/
theorem Settled.undecided {lost : List (QueueId × CallId × V)} {h₀ : Hazard}
    (h : w.Settled (.hazard h₀ :: .call name c :: hs) lost) : ¬ w.Decided c := by
  have hopen : c ∈ (Holding.hazard h₀ :: .call name c :: hs).filterMap Holding.call? :=
    List.mem_cons_self ..
  obtain ⟨-, hothers, hdisjoint⟩ := List.nodup_append.1 h.calls
  have hreturned : c ∉ w.returnedCalls := fun hmem => hdisjoint c hmem c hopen rfl
  rintro (hremoved | hmem)
  · obtain ⟨x, hx, rfl⟩ := List.mem_map.1 hremoved
    rcases List.mem_append.1 (h.values.mem_iff.1 hx) with hlost | hx
    · exact (h.ended x hlost).2 (List.mem_append_right _ hopen)
    · rcases List.mem_append.1 hx with hreceipt | hsuspended
      · exact hreturned (call_mem_of_receipt hreceipt)
      · -- The number is among the open ones only once.
        have hx : x ∈ hs.filterMap w.suspension := hsuspended
        obtain ⟨k, hk, hkx⟩ := List.mem_filterMap.1 hx
        have hcall := List.mem_filterMap.2 ⟨k, hk, call_of_suspension hkx⟩
        exact (List.nodup_cons.1 hothers).1 hcall
  · exact hreturned hmem

theorem round_uncontested (h : (w.census hs).Valid) (hq : w.queues.get? name = some q) :
    (q.dequeueRound w.memory.nodes).isUncontested = true := by
  obtain ⟨l, t, ht, hpath⟩ := path_of_census h hq
  cases hhead : q.head with
  | none =>
    rw [hhead] at hpath
    cases l <;> cases hpath
  | some b =>
    have hb := head_mem_trail h hq hhead
    obtain ⟨n, hn⟩ := Option.isSome_iff_exists.1 (hpath.trail.isSome hb)
    by_cases htail : q.tail = some b
    · have hnext := tail_next h hq htail hn
      cases hv : n.slot.value? <;>
        simp [Queue.dequeueRound, Queue.claim, hhead, hn, htail, hv, hnext,
          DequeueRound.isUncontested]
    · cases hnext : n.next with
      | none =>
        rw [hhead] at hpath
        have htrail := hpath.trail_cons hn
        rw [hpath.trail_eq, hnext, Nodes.Path.nil.trail_eq] at htrail
        have hlast := congrArg List.getLast? htrail
        rw [List.getLast?_append, List.getLast?_singleton, List.getLast?_singleton] at hlast
        exact absurd (ht.trans hlast) htail
      | some next =>
        simp [Queue.dequeueRound, Queue.exchangeHead, hhead, hn, htail, hnext,
          DequeueRound.isUncontested]

theorem not_spent_of_unlinked (h : (w.census hs).Valid) (hordered : w.Ordered)
    (hfilled : w.Filled) (hq : w.queues.get? name = some q)
    (hround : q.dequeueRound w.memory.nodes = .unlinked a q')
    (hqueues : w'.queues = w.queues.insert name q')
    (hnodes : w'.memory.nodes = w.memory.nodes) : ¬ w'.Spent q.id := by
  rintro ⟨name₁, q₁, h₁, hid, hnone⟩
  obtain ⟨n, next, hhead, -, hn, hnext, rfl⟩ := Queue.dequeueRound_unlinked hround
  rw [hqueues, Table.get?_insert] at h₁
  split at h₁
  · obtain rfl := Option.some.inj h₁
    have hpath := trail_path h hq
    have hrest := hfilled name q hq
    rw [hhead] at hpath hrest
    rw [hnodes] at hnone
    exact hrest.value_next hpath hn hnext hnone
  · rename_i hne
    exact hne (hordered.unique _ _ _ _ h₁ hq hid)

end World

namespace Run
variable {m : Run V} {c : CallId} {i : QueueId} {q : Queue} {d : DequeueFrame V} {h₀ : Hazard}
  {rest : List (Frame V)}

def round? (m : Run V) (c : CallId) : Option (DequeueRound (Payload V)) :=
  match m.control, m.stack with
  | .resume, .dequeue { queue, stage := .round c' _, .. } :: _ =>
    if c' = c then (m.world.queues.get? queue).map fun q => q.dequeueRound m.world.memory.nodes
    else none
  | _, _ => none

/-- The rounds of the attempt within so many steps. -/
def rounds (m : Run V) (c : CallId) (k : Nat) : List (DequeueRound (Payload V)) :=
  (List.range k).filterMap fun j => (m.complete j).round? c

theorem rounds_succ (m : Run V) (c : CallId) (k : Nat) :
    m.rounds c (k + 1) = m.rounds c k ++ ((m.complete k).round? c).toList := by
  unfold rounds
  rw [List.range_succ, List.filterMap_append]
  cases h : (m.complete k).round? c <;> simp [h]

theorem round?_eq_some {r : DequeueRound (Payload V)} (h : m.round? c = some r) :
    ∃ d h₀ rest q, m.control = .resume ∧ m.stack = .dequeue d :: rest ∧ d.stage = .round c h₀ ∧
      m.world.queues.get? d.queue = some q ∧ q.dequeueRound m.world.memory.nodes = r := by
  unfold round? at h
  split at h
  · rename_i name c' h₀ goal rest hcontrol hstack
    split at h
    · rename_i hc
      obtain ⟨q, hq, hr⟩ := Option.map_eq_some_iff.1 h
      exact ⟨_, h₀, rest, q, hcontrol, hstack, hc ▸ rfl, hq, hr⟩
    · cases h
  · cases h

theorem finishAttempt_returns {found : Option (Payload V)}
    (hcalm : (m.finishAttempt d c h₀ q found).IsCalm) :
    c ∈ (m.finishAttempt d c h₀ q found).world.returnedCalls := by
  unfold finishAttempt at hcalm ⊢
  split at hcalm
  · exact absurd rfl (hcalm _)
  · dsimp only
    split
    · exact List.mem_cons_self ..
    · exact List.mem_cons_self ..
    · exact List.mem_cons_self ..
    · split
      · exact List.mem_cons_self ..
      · split <;> exact List.mem_cons_self ..

/-- The attempt makes another round only after one that has unlinked a spent node. -/
theorem continueDequeue_round {hs : List (Holding V)} (hvalid : (m.world.census hs).Valid)
    (hstage : d.stage = .round c h₀) (hq : m.world.queues.get? d.queue = some q)
    (hcalm : (m.continueDequeue d).IsCalm) :
    (m.continueDequeue d).world.Decided c ∨
      ∃ a q', q.dequeueRound m.world.memory.nodes = .unlinked a q' ∧
        m.world.memory.nodes.value? a = none ∧
        (m.continueDequeue d).world.queues = m.world.queues.insert d.queue q' ∧
        (m.continueDequeue d).world.memory.nodes = m.world.memory.nodes := by
  obtain ⟨name, stage, goal⟩ := d
  obtain rfl := hstage
  have hpublished : (m.world.publish h₀ q.head).2.memory.nodes = m.world.memory.nodes := rfl
  unfold continueDequeue at hcalm ⊢
  dsimp only at hq
  simp only [hq, hpublished] at hcalm ⊢
  rcases DequeueRound.eq_of_isUncontested (World.round_uncontested hvalid hq) with
    ⟨p, q', nodes, hround⟩ | hround | ⟨a, q', hround⟩
  · rw [hround] at hcalm ⊢
    exact .inl (.inr (finishAttempt_returns hcalm))
  · rw [hround] at hcalm ⊢
    exact .inl (.inr (finishAttempt_returns hcalm))
  · rw [hround] at hcalm ⊢
    dsimp only at hcalm ⊢
    split at hcalm
    · exact absurd rfl (hcalm _)
    · rename_i rs s hs
      rw [World.noteUnlinked_eq] at hs ⊢
      cases hv : m.world.memory.nodes.value? a with
      | none => exact .inr ⟨a, q', rfl, hv, rfl, rfl⟩
      | some p =>
        refine .inl (.inl (List.mem_map.2 ⟨(q.id, c, p.value), ?_, rfl⟩))
        refine List.mem_filterMap.2 ⟨.removed q.id c a p.value, List.mem_cons_of_mem _ ?_, rfl⟩
        refine List.mem_append_left _ (List.mem_map.2 ⟨p, ?_, rfl⟩)
        exact Option.mem_toList.2 hv

theorem gains_holdings (m : Run V) (i : QueueId) (c : CallId) :
    m.world.gains m.holdings i c =
      m.world.receipts.countP fun x => x.1 = i ∧ x.2.1 ≠ c := by
  have hnone : m.holdings.filterMap Holding.receipt? = [] :=
    filterMap_holdings_eq_nil (fun k hk => by cases k <;> first | rfl | cases hk) m
  rw [World.gains, World.earned, hnone, List.append_nil]

theorem step_roundsPaid {n : Nat} (h : m.Reachable) (hcalm : m.step.IsCalm)
    (hp : m.world.RoundsPaid m.holdings i c n) :
    m.step.world.RoundsPaid m.step.holdings i c (n + (m.round? c).toList.length) := by
  obtain ⟨hordered, lost, hsettled⟩ := h.settled
  have hall : m.step.world.Sound m.step.holdings ∧ m.step.world.Filled ∧
      m.step.world.RoundsPaid m.step.holdings i c n ∧
      m.world.gains m.holdings i c ≤ m.step.world.gains m.step.holdings i c :=
    (calm_effects hcalm).induct
      (P := fun w hs => w.Sound hs ∧ w.Filled ∧ w.RoundsPaid hs i c n ∧
        m.world.gains m.holdings i c ≤ w.gains hs i c)
      (fun _ _ _ _ e ⟨hsound, hfilled, hpaid, hmore⟩ =>
        ⟨e.sound hsound, e.filled hsound hfilled, e.roundsPaid hsound hfilled hpaid,
          Nat.le_trans hmore ((e.earned_subperm hsound).countP_le _)⟩)
      ⟨h.sound, h.filled, hp, Nat.le_refl _⟩
  obtain ⟨-, -, hkept, hmore⟩ := hall
  cases hround : m.round? c with
  | none => exact hkept
  | some r =>
    obtain ⟨d, h₀, rest, q, hcontrol, hstack, hstage, hq, -⟩ := round?_eq_some hround
    have hheld : m.holdings = .hazard h₀ :: .call d.queue c :: .visit d.queue ::
        rest.flatMap Frame.holdings := by
      obtain ⟨name, stage, goal⟩ := d
      obtain rfl := hstage
      rw [holdings, hstack]
      rfl
    have hid : q.id = i := by
      have hplace := hp.place d.queue (hheld ▸ List.mem_cons_self ..)
      exact Option.some.inj ((World.queueId?_of_get? hq).symm.trans hplace)
    obtain ⟨hle, hspent⟩ := hp.early.resolve_left (hheld ▸ hsettled).undecided
    rw [step_of_resume hstack hcontrol] at hcalm hkept hmore ⊢
    have hvalid := h.sound.census
    rw [Option.toList_some, List.length_singleton]
    rcases continueDequeue_round (m := { m with stack := rest, control := .resume }) hvalid hstage
      hq hcalm with
      hdecided | ⟨a, q', hunlinked, hvalue, hqueues, hnodes⟩
    · exact ⟨hkept.begun, hkept.known, hkept.place, by omega, .inl hdecided⟩
    · obtain ⟨_, _, hhead, -⟩ := Queue.dequeueRound_unlinked hunlinked
      have hnow := hspent ⟨d.queue, q, hq, hid, by rw [hhead]; exact hvalue⟩
      refine ⟨hkept.begun, hkept.known, hkept.place, by omega, .inr ⟨by omega, fun hagain => ?_⟩⟩
      rw [← hid] at hagain
      exact absurd hagain
        (World.not_spent_of_unlinked hvalid hordered h.filled hq hunlinked hqueues hnodes)

/-- What has been taken before an attempt begins pays for no round of it. -/
theorem Reachable.start_roundsPaid (h : m.Reachable) (hcontrol : m.control = .resume)
    (hstack : m.stack = .dequeue d :: rest) (hstart : d.stage = .start)
    (hq : m.world.queues.get? d.queue = some q) (hcalm : m.step.IsCalm) :
    m.step.world.RoundsPaid m.step.holdings q.id m.world.nextCall
      (m.world.gains m.holdings q.id m.world.nextCall) := by
  obtain ⟨hordered, lost, hsettled⟩ := h.settled
  obtain ⟨h₀, s, hstep⟩ := step_start hcontrol hstack hstart hq hcalm
  have hsame : m.step.world.gains m.step.holdings q.id m.world.nextCall =
      m.world.gains m.holdings q.id m.world.nextCall := by
    rw [gains_holdings, gains_holdings, hstep]
    rfl
  refine ⟨?_, ?_, fun name hname => ?_, by omega, .inr ⟨by omega, fun _ => Nat.le_of_eq hsame.symm⟩⟩
  · rw [hstep]
    exact Nat.lt_succ_self _
  · rw [hstep]
    exact hordered.bounded d.queue q hq
  · obtain ⟨k, hk, hattempt⟩ := List.mem_filterMap.1 hname
    rw [hstep] at hk ⊢
    rcases List.mem_append.1 (show k ∈ [.hazard h₀, .call d.queue m.world.nextCall,
      .visit d.queue] ++ rest.flatMap Frame.holdings from hk) with hk | hk
    · simp only [List.mem_cons, List.not_mem_nil, or_false] at hk
      rcases hk with rfl | rfl | rfl
      · cases hattempt
      · obtain ⟨rfl, -⟩ := Prod.mk.inj (Option.some.inj hattempt)
        exact World.queueId?_of_get? hq
      · cases hattempt
    · -- The attempts that were under way before have smaller numbers.
      have hheld : k ∈ m.holdings := by
        rw [holdings, hstack]
        exact List.mem_append_right _ hk
      have hopen := List.mem_filterMap.2 ⟨k, hheld, Holding.call_of_attempt hattempt⟩
      exact absurd (hsettled.bounded _ (List.mem_append_right _ hopen)) (Nat.lt_irrefl _)

theorem Reachable.complete_roundsPaid (h : m.Reachable) {n j k : Nat} (hjk : j ≤ k)
    (hcalm : ∀ k' ≤ k, (m.complete k').IsCalm)
    (hp : (m.complete j).world.RoundsPaid (m.complete j).holdings i c (n + (m.rounds c j).length)) :
    (m.complete k).world.RoundsPaid (m.complete k).holdings i c (n + (m.rounds c k).length) := by
  induction hjk with
  | refl => exact hp
  | @step k hjk ih =>
    have hnow := ih fun k' hk' => hcalm k' (Nat.le_succ_of_le hk')
    have hnext := hcalm (k + 1) (Nat.le_refl _)
    rw [complete_succ] at hnext ⊢
    rw [rounds_succ, List.length_append, ← Nat.add_assoc]
    exact step_roundsPaid (h.complete k) hnext hnow

theorem round_retirements (hstage : d.stage = .round c h₀)
    (hq : m.world.queues.get? d.queue = some q) (hcalm : (m.continueDequeue d).IsCalm) :
    (m.continueDequeue d).world.retirements =
      (q.dequeueRound m.world.memory.nodes).node?.toList.map (⟨·, .boxed⟩) ++
        m.world.retirements := by
  by_cases hunlinks : ∃ a q', q.dequeueRound m.world.memory.nodes = .unlinked a q'
  · obtain ⟨a, q', hround⟩ := hunlinks
    rw [hround]
    rcases m.unlinked_moves hstage hq hround with ⟨rs, hmoves⟩ | ⟨p, hp, -⟩
    · exact hmoves.world.retirements
    · exact absurd hp (hcalm p)
  · have hnode : (q.dequeueRound m.world.memory.nodes).node? = none := by
      cases hround : q.dequeueRound m.world.memory.nodes with
      | unlinked a q' => exact absurd ⟨a, q', hround⟩ hunlinks
      | _ => rfl
    rw [hnode]
    exact (m.round_moves hq
      fun a q' hround => hunlinks ⟨a, q', hround⟩).world.retirements

/-- A step of an attempt retires the node that its round unlinks, and nothing else. -/
theorem attempt_retirements {f : Frame V} (hcontrol : m.control = .resume)
    (hstack : m.stack = f :: rest) (hf : f.call? = some c) (hcalm : m.step.IsCalm) :
    m.step.world.retirements =
      ((m.round? c).bind DequeueRound.node?).toList.map (⟨·, .boxed⟩) ++ m.world.retirements := by
  cases f with
  | dequeue d =>
    have hstep : m.step = continueDequeue { m with stack := rest, control := .resume } d :=
      step_of_resume hstack hcontrol
    rw [hstep] at hcalm ⊢
    obtain ⟨name, stage, goal⟩ := d
    unfold round?
    rw [hcontrol, hstack]
    cases stage with
    | start => cases hf
    | round c' h₀ =>
      obtain rfl := Option.some.inj hf
      dsimp only
      rw [if_pos rfl]
      cases hq : m.world.queues.get? name with
      | none =>
        unfold continueDequeue
        dsimp only
        rw [hq]
        rfl
      | some q =>
        exact round_retirements (m := { m with stack := rest, control := .resume })
          (d := ⟨name, .round c' h₀, goal⟩) rfl hq hcalm
    | unlinked c' h₀ a =>
      exact (claimStage_moves { m with stack := rest, control := .resume } rfl).world.retirements
  | _ => cases hf

/-- An attempt to remove a value makes two rounds at most, and one more for every value that another
attempt gets from the queue meanwhile: a destructor that runs inside it, then. It never meets
another operation halfway, and all it retires are the nodes that its rounds unlink. -/
theorem Reachable.rounds_bounded (h : m.Reachable) (hcontrol : m.control = .resume)
    (hstack : m.stack = .dequeue d :: rest) (hstart : d.stage = .start)
    (hq : m.world.queues.get? d.queue = some q) {k : Nat}
    (hcalm : ∀ j ≤ k, (m.complete j).IsCalm) :
    let c := m.world.nextCall
    ∃ new, (m.complete k).world.history = new ++ m.world.history ∧
      (m.rounds c k).length ≤
        2 + (new.filterMap Event.receipt?).countP (fun x => x.1 = q.id ∧ x.2.1 ≠ c) ∧
      ((m.rounds c k).filterMap DequeueRound.node?).length ≤
        2 + (new.filterMap Event.receipt?).countP (fun x => x.1 = q.id ∧ x.2.1 ≠ c) ∧
      (∀ r ∈ m.rounds c k, r.isUncontested = true) ∧
      ∀ j < k, ∀ f rest, (m.complete j).control = .resume → (m.complete j).stack = f :: rest →
        f.call? = some c →
        (m.complete (j + 1)).world.retirements =
          (((m.complete j).round? c).bind DequeueRound.node?).toList.map (⟨·, .boxed⟩) ++
            (m.complete j).world.retirements := by
  intro c
  have hsuffix : m.world.history <:+ (m.complete k).world.history :=
    Reaches.history_suffix (P := fun _ => True)
      (.complete (.refl trivial) k fun _ _ => trivial)
  obtain ⟨new, hnew⟩ := hsuffix
  have hfew : (m.rounds c k).length ≤
      2 + (new.filterMap Event.receipt?).countP (fun x => x.1 = q.id ∧ x.2.1 ≠ c) := by
    rcases Nat.eq_zero_or_pos k with rfl | hk
    · exact Nat.zero_le _
    · have hfirst : m.complete 1 = m.step := by rw [complete_succ, complete_zero]
      have hnone : m.rounds c 1 = [] := by
        rw [rounds_succ, complete_zero]
        obtain ⟨name, stage, goal⟩ := d
        obtain rfl : stage = .start := hstart
        unfold round?
        rw [hcontrol, hstack]
        rfl
      have hbegun := h.start_roundsPaid hcontrol hstack hstart hq (hfirst ▸ hcalm 1 hk)
      have hend := h.complete_roundsPaid (i := q.id) (c := c)
        (n := m.world.gains m.holdings q.id c) hk hcalm (by rw [hnone, hfirst]; exact hbegun)
      have hbounded := hend.bounded
      rw [gains_holdings, gains_holdings, World.receipts, World.receipts, ← hnew,
        List.filterMap_append, List.countP_append] at hbounded
      omega
  refine ⟨new, hnew.symm, hfew, Nat.le_trans (List.length_filterMap_le _ _) hfew, ?_, ?_⟩
  · intro r hr
    obtain ⟨j, -, hround⟩ := List.mem_filterMap.1 hr
    obtain ⟨_, _, _, q₁, -, -, -, hq₁, rfl⟩ := round?_eq_some hround
    exact World.round_uncontested (h.complete j).sound.census hq₁
  · intro j hj f rest hresume htop hf
    have hnext := hcalm (j + 1) hj
    rw [complete_succ] at hnext ⊢
    exact attempt_retirements hresume htop hf hnext

/-- A removal is about to begin. The first node of the queue is spent, and the record that is
reclaimed when this node is retired takes the only value out of the queue and inserts another. -/
def outpaced : Run Nat := idle.following
  (tell 0 12 [.install { minRecords := some 2 }, .createQueue "queue" .yield,
    .onQueue "queue" (.enqueue 7 []),
    .create "record" [⟨none, .onQueue "queue" .tryDequeue⟩,
      ⟨none, .onQueue "queue" (.enqueue 8 [])⟩], .retire "record" .boxed] ++
  tell 0 0 [.onQueue "queue" .tryDequeue])

theorem outpaced_reachable : outpaced.Reachable :=
  .following (.refl trivial) _ (by decide +kernel)

/-- The removal makes three rounds and unlinks two nodes, and the other has got one value. -/
theorem outpaced_rounds :
    outpaced.step.Reachable ∧ outpaced.step.world.nextCall = 0 ∧
      (∀ j ≤ 21, (outpaced.step.complete j).IsCalm) ∧
      (outpaced.step.complete 21).outcome.isSome = true ∧
      (outpaced.step.rounds 0 21).filterMap DequeueRound.node? = [1, 2] ∧
      (outpaced.step.complete 21).world.receipts = [(0, 0, 8), (0, 1, 7)] ∧
      ∃ new, (outpaced.step.complete 21).world.history = new ++ outpaced.step.world.history ∧
        3 ≤ 2 + (new.filterMap Event.receipt?).countP fun x => x.1 = 0 ∧ x.2.1 ≠ 0 := by
  have hreach : outpaced.step.Reachable := .step outpaced_reachable trivial
  have hnext : outpaced.step.world.nextCall = 0 := by decide +kernel
  have hcalm : ∀ j ≤ 21, (outpaced.step.complete j).IsCalm := by decide +kernel
  have hlength : (outpaced.step.rounds 0 21).length = 3 := by decide +kernel
  refine ⟨hreach, hnext, hcalm, by decide +kernel, by decide +kernel, by decide +kernel, ?_⟩
  have hthere : (outpaced.world.queues.get? "queue").isSome = true := by decide +kernel
  obtain ⟨q, hq⟩ := Option.isSome_iff_exists.1 hthere
  have hid : q.id = 0 := by
    have hmap : (outpaced.world.queues.get? "queue").map (·.id) = some 0 := by decide +kernel
    rw [hq] at hmap
    exact Option.some.inj hmap
  have hstep := step_tryDequeue hq rfl
  obtain ⟨new, hnew, hfew, -⟩ := hreach.rounds_bounded (q := q) (congrArg Run.control hstep)
    (congrArg Run.stack hstep) rfl (by rw [hstep]; exact hq) hcalm
  rw [hnext, hlength, hid] at hfew
  exact ⟨new, hnew, hfew⟩

end Run
end Reclaim
