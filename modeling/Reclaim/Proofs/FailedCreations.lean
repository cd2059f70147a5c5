import Mathlib
import Reclaim.Proofs.EmptyQueues
import Reclaim.Proofs.RaisedPanics

set_option autoImplicit false

namespace Reclaim
variable {V : Type}

theorem Bag.maxCapacity_eq : maxCapacity = 2 ^ 59 - 1 := rfl

namespace Site

structure IsBarred (s : Site) : Prop where
  absent : s.presence = .absent
  bags : s.domain.abandoned.bags = []
  large : 2 ^ 59 - 1 < s.domain.config.initCache.toNat

theorem enter_eq_error {s : Site} {p : Panic} :
    s.enter = .error p ↔ p = .capacityOverflow ∧ s.IsBarred := by
  unfold enter
  split
  · rename_i habsent
    refine (bind_eq_error fun _ h => ?_).trans (Context.create_eq_error.trans ?_)
    · cases h
    · rw [Bag.maxCapacity_eq]
      exact and_congr_right fun _ =>
        ⟨fun ⟨hbags, hlarge⟩ => ⟨habsent, hbags, hlarge⟩, fun h => ⟨h.bags, h.large⟩⟩
  · rename_i hpresent
    exact ⟨nofun, fun ⟨_, h⟩ => absurd h.absent hpresent⟩

end Site

namespace Nodes.Path
variable {nodes nodes' : Nodes V} {start : Option Address} {l : List Address}

/-- A chain that ends is found whatever other cells there are. -/
theorem chainFrom_congr (h : Path nodes start l)
    (hsame : ∀ a ∈ l, nodes'.get? a = nodes.get? a) {fuel fuel' : Nat} (hfuel : l.length ≤ fuel)
    (hfuel' : l.length ≤ fuel') : nodes'.chainFrom fuel' start = nodes.chainFrom fuel start := by
  induction h generalizing fuel fuel' with
  | nil => cases fuel <;> cases fuel' <;> rfl
  | @cons a n l hn _ ih =>
    obtain ⟨fuel, rfl⟩ := Nat.exists_eq_add_one_of_ne_zero (Nat.ne_zero_of_lt hfuel)
    obtain ⟨fuel', rfl⟩ := Nat.exists_eq_add_one_of_ne_zero (Nat.ne_zero_of_lt hfuel')
    have hrest := ih (fun b hb => hsame b (List.mem_cons_of_mem a hb))
      (Nat.le_of_succ_le_succ hfuel) (Nat.le_of_succ_le_succ hfuel')
    simp only [Nodes.chainFrom, hsame a (List.mem_cons_self ..), hn, Option.bind_eq_bind,
      Option.bind_some, hrest]

theorem chain_congr {q : Queue} (h : Path nodes q.head l)
    (hsame : ∀ a ∈ l, nodes'.get? a = nodes.get? a) : q.chain nodes' = q.chain nodes := by
  have h' : Path nodes' q.head l := h.congr fun a ha => by rw [hsame a ha]
  exact h.chainFrom_congr hsame h.length_le_size h'.length_le_size

end Nodes.Path

/-- A new node is in no chain yet. -/
theorem Run.Reachable.chain_allocateNode {m : Run V} (h : m.Reachable) {name : Name} {q : Queue}
    (hq : m.world.queues.get? name = some q) (n : Node (Payload V)) :
    q.chain (m.world.memory.allocateNode n).2.nodes = q.chain m.world.memory.nodes :=
  (World.trail_path h.sound.census hq).chain_congr fun _ ha =>
    Table.get?_insert_of_ne
      (h.sound.census.ne_fresh_of_linked (World.trail_subset_linked hq m.holdings ha))

namespace Run
variable {m : Run V}

/-- What a failed call leaves as it was: the registry and its counters, what is abandoned, the
contexts of all threads, the hazard pointers, and the queues with their counters and chains. -/
structure Untouched (m n : Run V) : Prop where
  thread : n.thread = m.thread
  domain : n.world.domain = m.world.domain
  threads : n.world.threads = m.world.threads
  hazards : n.world.hazards = m.world.hazards
  queues : n.world.queues = m.world.queues
  chains : ∀ name q, m.world.queues.get? name = some q →
    q.chain n.world.memory.nodes = q.chain m.world.memory.nodes

theorem untouched_unwind (m : Run V) (p : Panic) : m.Untouched (m.unwind p) :=
  ⟨rfl, rfl, rfl, rfl, rfl, fun _ _ _ => rfl⟩

theorem Untouched.presence {n : Run V} (h : m.Untouched n) : n.site.presence = m.site.presence := by
  rw [site, World.site, World.thread, h.threads, h.thread]
  rfl

/-- The next step is the first of a call that needs the context of the thread, and the call is not
refused. A removal that has unlinked a node retires it, but it has the context then. -/
inductive BeginsCall (m : Run V) : Prop where
  | newHazard {hazard : Name} {n : Option Name} {a : Option Address} :
      m.control = .perform (.newHazard hazard n) → m.protectable n = .ok a →
      m.world.hazards.contains hazard = false → BeginsCall m
  | tryHazard : m.control = .perform .tryHazard → BeginsCall m
  | countRetired : m.control = .perform .countRetired → BeginsCall m
  | flush : m.control = .perform .flush → BeginsCall m
  | retire {name : Name} {d : Deleter} {a : Address} {w : World V} :
      m.control = .perform (.retire name d) → m.world.markRetired name = .ok (a, w) → BeginsCall m
  | enqueue {e : EnqueueFrame V} {rest : List (Frame V)} : m.control = .resume →
      m.stack = .enqueue e :: rest → e.stage = .start → BeginsCall m
  | tryDequeue {d : DequeueFrame V} {rest : List (Frame V)} {q : Queue} : m.control = .resume →
      m.stack = .dequeue d :: rest → d.stage = .start →
      m.world.queues.get? d.queue = some q → BeginsCall m

inductive Enters (m n : Run V) : Prop where
  | fails (p : Panic) : m.site.enter = .error p → n.control = .unwind p → m.Untouched n → Enters m n
  | goesOn : (∀ p, m.site.enter ≠ .error p) → n.IsCalm → Enters m n

theorem Enters.control {n : Run V} (h : m.Enters n) {p : Panic} :
    n.control = .unwind p ↔ m.site.enter = .error p := by
  cases h with
  | fails p' hp hcontrol _ =>
    rw [hp, hcontrol]
    exact ⟨fun h => congrArg _ (Control.unwind.inj h), fun h => congrArg _ (Except.error.inj h)⟩
  | goesOn hok hcalm => exact ⟨fun h => absurd h (hcalm p), fun h => absurd h (hok p)⟩

theorem Enters.untouched {n : Run V} (h : m.Enters n) {p : Panic} (hp : n.control = .unwind p) :
    m.Untouched n := by
  cases h with
  | fails _ _ _ huntouched => exact huntouched
  | goesOn _ hcalm => exact absurd hp (hcalm p)

theorem not_error_of_ok {α : Type} {x : Except Panic α} {a : α} {s : Site}
    (hx : ∀ p, x = .error p ↔ s.enter = .error p) (h : x = .ok a) (p : Panic) :
    s.enter ≠ .error p := fun hp => by
  rw [← hx, h] at hp
  cases hp

theorem countRetired_enters (m : Run V) : m.Enters m.countRetired := by
  unfold countRetired
  split
  · rename_i p hp
    exact .fails p (Site.retiredCount_eq_error.1 hp) rfl (m.untouched_unwind p)
  · rename_i hs
    exact .goesOn (not_error_of_ok (fun _ => Site.retiredCount_eq_error) hs) nofun

theorem flush_enters (m : Run V) : m.Enters m.flush := by
  unfold flush
  split
  · rename_i p hp
    exact .fails p (Site.flush_eq_error.1 hp) rfl (m.untouched_unwind p)
  · rename_i hs
    exact .goesOn (not_error_of_ok (fun _ => Site.flush_eq_error) hs) nofun

theorem retire_enters {name : Name} {d : Deleter} {a : Address} {w : World V}
    (h : m.world.markRetired name = .ok (a, w)) : m.Enters (m.retire name d) := by
  obtain ⟨e, -, -, -, rfl⟩ := World.markRetired_spec h
  unfold retire
  rw [h]
  dsimp only
  split
  · rename_i p hp
    exact .fails p (Site.retire_eq_error.1 hp) rfl ⟨rfl, rfl, rfl, rfl, rfl, fun _ _ _ => rfl⟩
  · rename_i hs
    exact .goesOn (not_error_of_ok (fun _ => Site.retire_eq_error) hs) nofun

theorem newHazard_enters {hazard : Name} {n : Option Name} {a : Option Address}
    (ha : m.protectable n = .ok a) (hname : m.world.hazards.contains hazard = false) :
    m.Enters (m.newHazard hazard n) := by
  unfold newHazard
  rw [ha]
  dsimp only
  rw [hname, if_neg Bool.false_ne_true]
  split
  · rename_i p hp
    exact .fails p (World.createHazard_eq_error.1 hp) rfl (m.untouched_unwind p)
  · rename_i hw
    exact .goesOn (not_error_of_ok (fun _ => World.createHazard_eq_error) hw) nofun

theorem tryHazard_enters (m : Run V) : m.Enters m.tryHazard := by
  unfold tryHazard
  split
  · rename_i p hp
    exact .fails p (World.createHazard_eq_error.1 hp) rfl (m.untouched_unwind p)
  · rename_i h w hw
    refine .goesOn (not_error_of_ok (fun _ => World.createHazard_eq_error) hw) ?_
    rw [World.dropHazard_eq (World.createHazard_active hw) (World.hasContext_createHazard hw)]
    nofun

/-- The node of the value is lost, and no queue has it. -/
theorem startEnqueue_enters (hm : m.Reachable) (rest : List (Frame V)) {e : EnqueueFrame V}
    (hstage : e.stage = .start) :
    m.Enters (continueEnqueue { m with stack := rest, control := .resume } e) := by
  unfold continueEnqueue
  rw [hstage]
  dsimp only
  split
  · rename_i p hp
    have henter := World.createHazard_eq_error.1 hp
    exact .fails p henter rfl ⟨rfl, rfl, rfl, rfl, rfl, fun _ _ hq => hm.chain_allocateNode hq _⟩
  · rename_i hw
    have hok := not_error_of_ok (fun _ => World.createHazard_eq_error) hw
    exact .goesOn hok nofun

theorem startDequeue_enters (rest : List (Frame V)) {d : DequeueFrame V} {q : Queue}
    (hstage : d.stage = .start) (hq : m.world.queues.get? d.queue = some q) :
    m.Enters (continueDequeue { m with stack := rest, control := .resume } d) := by
  unfold continueDequeue
  dsimp only
  rw [hq, hstage]
  dsimp only
  split
  · rename_i p hp
    have henter := World.createHazard_eq_error.1 hp
    exact .fails p henter rfl ⟨rfl, rfl, rfl, rfl, rfl, fun _ _ _ => rfl⟩
  · rename_i hw
    have hok := not_error_of_ok (fun _ => World.createHazard_eq_error) hw
    exact .goesOn hok nofun

theorem BeginsCall.enters (h : m.BeginsCall) (hm : m.Reachable) : m.Enters m.step := by
  cases h with
  | newHazard hcontrol ha hname =>
    rw [step_of_perform hcontrol]
    exact newHazard_enters ha hname
  | tryHazard hcontrol =>
    rw [step_of_perform hcontrol]
    exact m.tryHazard_enters
  | countRetired hcontrol =>
    rw [step_of_perform hcontrol]
    exact m.countRetired_enters
  | flush hcontrol =>
    rw [step_of_perform hcontrol]
    exact m.flush_enters
  | retire hcontrol hmark =>
    rw [step_of_perform hcontrol]
    exact retire_enters hmark
  | enqueue hcontrol hstack hstage =>
    rw [step_of_resume hstack hcontrol]
    exact startEnqueue_enters hm _ hstage
  | tryDequeue hcontrol hstack hstage hq =>
    rw [step_of_resume hstack hcontrol]
    exact startDequeue_enters _ hstage hq

/-! All other steps go another way. Only a hazard pointer that is dropped, and a bag that is
abandoned by hand, can overflow a capacity elsewhere. -/

theorem exclusively_cases {α : Type} {P : Run V → Prop} {queue : Name} {q : Queue}
    {read : Option α} {f : α → Run V} (hbusy : P (m.refuse .busy)) (hfault : ∀ a, P (m.fault a))
    (hf : ∀ a, P (f a)) : P (m.exclusively queue q read f) := by
  unfold exclusively
  split
  · exact hbusy
  · split
    · exact hfault _
    · exact hf _

/-- What an operation on a queue does first is to get ready. One that waits for a value may tell the
queue of it, though. -/
theorem onQueue_prepares (m : Run V) (queue : Name) (action : QueueAction V) :
    (m.onQueue queue action).IsCalm ∧
      (action ≠ .dequeue → (m.onQueue queue action).world = m.world) := by
  unfold onQueue
  split
  · exact ⟨nofun, fun _ => rfl⟩
  · cases action with
    | enqueueEach count value =>
      dsimp only [enqueueAll]
      split <;> exact ⟨nofun, fun _ => rfl⟩
    | tryDequeueTimes times => cases times <;> exact ⟨nofun, fun _ => rfl⟩
    | dequeue =>
      refine ⟨exclusively_cases nofun (fun _ => nofun) fun front => ?_, fun h => absurd rfl h⟩
      cases front <;> nofun
    | values | nextTimes =>
      refine exclusively_cases (P := fun n => n.IsCalm ∧ (_ → n.world = m.world)) ?_ ?_ ?_
      · exact ⟨nofun, fun _ => rfl⟩
      · exact fun _ => ⟨nofun, fun _ => rfl⟩
      · exact fun _ => ⟨nofun, fun _ => rfl⟩
    | enqueue | tryEnqueue | tryDequeue => exact ⟨nofun, fun _ => rfl⟩
    | malformed | length | bounds | describe | strategy => exact ⟨nofun, fun _ => rfl⟩

theorem publishAs_calm (m : Run V) (hazard : Name) (a : Option Address) (reply : Answer V) :
    (m.publishAs hazard a reply).IsCalm := by
  unfold publishAs
  split <;> nofun

theorem begins_of_perform {op : Op V} (hcontrol : m.control = .perform op)
    (habandon : ∀ capacity names, op ≠ .abandon capacity names)
    (hdrop : ∀ hazard, op ≠ .dropHazard hazard)
    (hp : (m.perform op).control = .unwind .capacityOverflow) : m.BeginsCall := by
  cases op with
  | countRetired => exact .countRetired hcontrol
  | flush => exact .flush hcontrol
  | tryHazard => exact .tryHazard hcontrol
  | retire name d =>
    change (m.retire name d).control = _ at hp
    unfold retire at hp
    split at hp
    · cases hp
    · rename_i hmark
      exact .retire hcontrol hmark
  | newHazard hazard n =>
    change (m.newHazard hazard n).control = _ at hp
    unfold newHazard at hp
    split at hp
    · cases hp
    · rename_i a ha
      split at hp
      · cases hp
      · rename_i hname
        exact .newHazard hcontrol ha (Bool.eq_false_iff.2 hname)
  | abandon capacity names => exact absurd rfl (habandon capacity names)
  | dropHazard hazard => exact absurd rfl (hdrop hazard)
  | install options =>
    change (m.install options).control = _ at hp
    unfold install at hp
    split at hp <;> cases hp
  | create name acts =>
    change (m.createRecord name acts).control = _ at hp
    unfold createRecord at hp
    split at hp <;> cases hp
  | setCell cell n =>
    change (m.setCell cell n).control = _ at hp
    unfold setCell at hp
    split at hp <;> cases hp
  | swapCell cell n =>
    change (m.swapCell cell n).control = _ at hp
    unfold swapCell at hp
    split at hp
    · cases hp
    · split at hp <;> cases hp
  | protect hazard n =>
    change (m.protect hazard n).control = _ at hp
    unfold protect at hp
    split at hp
    · cases hp
    · exact absurd hp (m.publishAs_calm _ _ _ _)
  | load hazard cell =>
    change (m.load hazard cell).control = _ at hp
    unfold load at hp
    split at hp
    · cases hp
    · dsimp only at hp
      split at hp
      · cases hp
      · exact absurd hp (m.publishAs_calm _ _ _ _)
  | reset hazard => exact absurd hp (m.publishAs_calm hazard none .done _)
  | inspect hazard =>
    change (m.inspect hazard).control = _ at hp
    unfold inspect at hp
    split at hp <;> cases hp
  | createQueue queue strategy =>
    change (m.createQueue queue strategy).control = _ at hp
    unfold createQueue at hp
    split at hp <;> cases hp
  | onQueue queue action => exact absurd hp ((m.onQueue_prepares queue action).1 _)
  | malformed | panic | currentConfig | statistics | listProtected => cases hp

theorem dropSlot_calm (m : Run V) (s : Slot (Payload V)) : (m.dropSlot s).IsCalm := by
  unfold dropSlot
  split <;> nofun

theorem reclaimNext_calm (m : Run V) (rs : List Retired) : (m.reclaimNext rs).IsCalm := by
  cases rs with
  | nil => nofun
  | cons r rest =>
    unfold reclaimNext destroy
    dsimp only
    split
    · split <;> nofun
    · split
      · exact dropSlot_calm _ _
      · nofun

theorem dropChain_calm (m : Run V) (queue : QueueId) (next : Option Address) :
    (m.dropChain queue next).IsCalm := by
  unfold dropChain
  split
  · nofun
  · split
    · nofun
    · exact dropSlot_calm _ _

/-- Where a hazard pointer is in use, the thread has its context, so that only the first steps of
insertions and removals are left. -/
theorem begins_of_proceed (hm : m.Reachable) {f : Frame V} {rest : List (Frame V)}
    (hcontrol : m.control = .resume) (hstack : m.stack = f :: rest)
    (habsent : m.site.presence = .absent)
    (hp : (proceed { m with stack := rest, control := .resume } f).control =
      .unwind .capacityOverflow) : m.BeginsCall := by
  have hidle : f.hazard? = none := by
    by_contra hsome
    obtain ⟨h, hh⟩ := Option.ne_none_iff_exists'.1 hsome
    refine hm.accurate.anchored (fun hnone => ?_) habsent
    rw [hstack, List.filterMap_cons_some hh] at hnone
    cases hnone
  cases f with
  | enqueue e =>
    obtain ⟨name, stage, current, supply, reply⟩ := e
    cases stage with
    | start => exact .enqueue hcontrol hstack rfl
    | link => cases hidle
  | dequeue d =>
    obtain ⟨name, stage, goal⟩ := d
    cases stage with
    | start =>
      cases hq : m.world.queues.get? name with
      | none =>
        change (continueDequeue _ ⟨name, .start, goal⟩).control = _ at hp
        unfold continueDequeue at hp
        dsimp only at hp
        rw [hq] at hp
        cases hp
      | some q => exact .tryDequeue hcontrol hstack rfl hq
    | round | unlinked => cases hidle
  | script acts =>
    change (nextAct _ acts).control = _ at hp
    unfold nextAct at hp
    split at hp <;> cases hp
  | reclaim rs =>
    change (reclaimNext _ rs).control = _ at hp
    exact absurd hp (reclaimNext_calm _ rs _)
  | dropChain queue next =>
    change (dropChain _ queue next).control = _ at hp
    exact absurd hp (dropChain_calm _ queue next _)
  | leave =>
    change (leave _).control = _ at hp
    unfold leave at hp
    split at hp <;> cases hp
  | abandonRest bag =>
    change (abandonRest _ bag).control = _ at hp
    unfold abandonRest at hp
    split at hp
    · cases hp
    · rename_i hbag
      rw [Domain.abandon, if_neg hbag] at hp
      cases hp
  | acting | answering | finishExit => cases hp

theorem begins_of_overflow (hm : m.Reachable) (hcalm : m.IsCalm)
    (habandon : ∀ capacity names, m.control ≠ .perform (.abandon capacity names))
    (hdrop : ∀ hazard, m.control ≠ .perform (.dropHazard hazard))
    (hp : m.step.control = .unwind .capacityOverflow) : m.BeginsCall := by
  have habsent : m.site.presence = .absent :=
    ((step_raises habandon hp).resolve_left (hcalm _)).1
  obtain ⟨w, t, stack, control⟩ := m
  unfold step at hp
  split at hp
  · rename_i op hcontrol
    exact begins_of_perform hcontrol
      (fun capacity names he => habandon capacity names (he ▸ hcontrol))
      (fun hazard he => hdrop hazard (he ▸ hcontrol)) hp
  · rename_i f rest hcontrol hstack
    cases hcontrol
    exact begins_of_proceed hm rfl hstack habsent hp
  · rename_i a f rest hcontrol hstack
    cases f <;> cases hp
  · rename_i p f rest hcontrol hstack
    exact absurd hcontrol (hcalm p)
  · exact absurd hp (hcalm _)

/-- Whatever the threads have done before, a capacity overflows exactly at the first step of a call
for which the thread needs a context and has had none, where there is no list to inherit and the
configuration asks for one that is too large. That step fails in no other way, and where it fails,
everything is left as it was, so that what was abandoned is not lost. Nor has an operation on a
queue done anything before, unless it is one that waits for a value. -/
theorem Reachable.failed_creation (hm : m.Reachable) (hcalm : m.IsCalm)
    (habandon : ∀ capacity names, m.control ≠ .perform (.abandon capacity names))
    (hdrop : ∀ hazard, m.control ≠ .perform (.dropHazard hazard)) :
    (m.step.control = .unwind .capacityOverflow ↔ m.BeginsCall ∧ m.site.IsBarred) ∧
      (m.BeginsCall → ∀ p, m.step.control = .unwind p → p = .capacityOverflow) ∧
      (m.step.control = .unwind .capacityOverflow →
        m.Untouched m.step ∧ m.step.site.presence = .absent) ∧
      ∀ queue action, m.control = .perform (.onQueue queue action) → action ≠ .dequeue →
        m.step.world = m.world := by
  refine ⟨⟨fun hp => ?_, fun ⟨hbegins, hbarred⟩ => ?_⟩, fun hbegins p hp => ?_, fun hp => ?_,
    fun queue action hcontrol hwaits => ?_⟩
  · have hbegins := begins_of_overflow hm hcalm habandon hdrop hp
    have henter := (hbegins.enters hm).control.1 hp
    exact ⟨hbegins, (Site.enter_eq_error.1 henter).2⟩
  · have henter : m.site.enter = .error .capacityOverflow := Site.enter_eq_error.2 ⟨rfl, hbarred⟩
    exact (hbegins.enters hm).control.2 henter
  · have henter := (hbegins.enters hm).control.1 hp
    exact (Site.enter_eq_error.1 henter).1
  · have henters := (begins_of_overflow hm hcalm habandon hdrop hp).enters hm
    have hsame := henters.untouched hp
    have hbarred := (Site.enter_eq_error.1 (henters.control.1 hp)).2
    exact ⟨hsame, hsame.presence.trans hbarred.absent⟩
  · rw [step_of_perform hcontrol]
    exact (m.onQueue_prepares queue action).2 hwaits

/-- There is a queue with a value, and a second thread is about to insert another. The configuration
that was chosen meanwhile asks for a list that is too large. -/
def overcommitted : Run Nat := idle.following
  (tell 0 9 [.createQueue "queue" .yield, .onQueue "queue" (.enqueue 5 []),
    .install { initCache := some (2 ^ 59) }] ++
  tell 1 1 [.onQueue "queue" (.enqueue 6 [])])

theorem overcommitted_reachable : overcommitted.Reachable :=
  .following (.refl trivial) _ (by decide +kernel)

theorem overcommitted_fails :
    overcommitted.Reachable ∧ overcommitted.IsCalm ∧ overcommitted.BeginsCall ∧
      overcommitted.site.IsBarred ∧ overcommitted.world.domain.registry.allocated = 1 ∧
      (overcommitted.world.queues.get? "queue").map Queue.size = some 1 ∧
      overcommitted.step.control = .unwind .capacityOverflow ∧
      overcommitted.Untouched overcommitted.step ∧
      overcommitted.step.site.presence = .absent := by
  have hcalm : overcommitted.IsCalm := by decide +kernel
  have hcontrol : overcommitted.control = .resume := rfl
  have hbegins : overcommitted.BeginsCall := .enqueue hcontrol rfl rfl
  have hbarred : overcommitted.site.IsBarred := ⟨rfl, rfl, by decide +kernel⟩
  have hother {op : Op Nat} : overcommitted.control ≠ .perform op := by
    rw [hcontrol]
    nofun
  obtain ⟨hfails, -, huntouched, -⟩ := overcommitted_reachable.failed_creation hcalm
    (fun _ _ => hother) (fun _ => hother)
  have hp := hfails.2 ⟨hbegins, hbarred⟩
  exact ⟨overcommitted_reachable, hcalm, hbegins, hbarred, by decide +kernel, by decide +kernel, hp,
    huntouched hp⟩

end Run
end Reclaim
