import Reclaim.Proofs.FullFlush
import Reclaim.Proofs.RaisedPanics

/-!
The checks that the library makes of its own state. None of them fails, whatever the threads are
told to do and whatever destructors do, panics included: hazard pointers own their records, no
empty bag is abandoned, and a queue always has a node (`Run.Reaches.checks_hold`).
-/

set_option autoImplicit false

namespace Reclaim
variable {V : Type}

/-- The panics of checks that only tell of a defect of the library, or of a null pointer. -/
def Panic.isAssertion : Panic → Bool
  | .inactiveRelease | .nullRetired | .emptyBag | .emptyChain | .weakOrder _ => true
  | .config _ | .capacityOverflow | .explicit _ => false

/-- A bag without records is abandoned by hand, past the threads. -/
def Control.isBypass : Control V → Bool
  | .perform (.abandon _ []) => true
  | _ => false

namespace World

structure NonNull (w : World V) : Prop where
  fresh : w.memory.fresh ≠ 0
  stored : ∀ a, w.Stored a → a ≠ 0
  retired : ∀ r ∈ w.retirements, r.address ≠ 0

theorem nonNull_empty : ({} : World V).NonNull := by
  refine ⟨Nat.one_ne_zero, fun a ha => ?_, fun r hr => absurd hr List.not_mem_nil⟩
  simp [Stored, Table.get?_empty] at ha

namespace NonNull
variable {w w' : World V}

/-- Some cells change, and some go. -/
theorem shrink (h : w.NonNull) (hfresh : w'.memory.fresh = w.memory.fresh)
    (hobjects : ∀ a, (w'.memory.objects.get? a).isSome = true →
      (w.memory.objects.get? a).isSome = true)
    (hnodes : ∀ a, (w'.memory.nodes.get? a).isSome = true →
      (w.memory.nodes.get? a).isSome = true)
    (hretired : w'.retirements = w.retirements) : w'.NonNull where
  fresh := hfresh ▸ h.fresh
  stored a ha := h.stored a (ha.imp (hobjects a) (hnodes a))
  retired := hretired ▸ h.retired

/-- One cell is new. -/
theorem grow (h : w.NonNull) (hfresh : w'.memory.fresh = w.memory.fresh + 1)
    (hstored : ∀ a, a ≠ w.memory.fresh → w'.Stored a → w.Stored a)
    (hretired : w'.retirements = w.retirements) : w'.NonNull where
  fresh := hfresh ▸ Nat.succ_ne_zero _
  stored a ha := by
    by_cases hne : a = w.memory.fresh
    · exact hne ▸ h.fresh
    · exact h.stored a (hstored a hne ha)
  retired := hretired ▸ h.retired

end NonNull
end World

theorem Effect.nonNull {lossy : Prop} {g : Registry} {w w' : World V} {hs hs' : List (Holding V)}
    (e : Effect lossy g w hs w' hs') (hsound : w.Sound hs) (h : w.NonNull) : w'.NonNull := by
  have hsame {w' : World V} (hmemory : w'.memory = w.memory)
      (hretired : w'.retirements = w.retirements) : w'.NonNull :=
    h.shrink (by rw [hmemory]) (fun a ha => hmemory ▸ ha) (fun a ha => hmemory ▸ ha) hretired
  -- A link or a vacated slot puts a node in the place of another.
  have hreplace {w' : World V} {a : Address} {n n' : Node (Payload V)}
      (hn : w.memory.nodes.get? a = some n)
      (hmemory : w'.memory = { w.memory with nodes := w.memory.nodes.insert a n' })
      (hretired : w'.retirements = w.retirements) : w'.NonNull := by
    refine h.shrink ?_ (fun b hb => ?_) (fun b hb => ?_) hretired <;> rw [hmemory] at *
    · exact hb
    · exact Table.isSome_of_replaced hn hb
  have hinserted {κ α : Type} [Ord κ] [Std.TransOrd κ] [Std.LawfulEqOrd κ] [DecidableEq κ]
      {l : Table κ α} {j k : κ} {x : α} (hne : j ≠ k)
      (hj : ((l.insert k x).get? j).isSome = true) : (l.get? j).isSome = true := by
    rwa [Table.get?_insert_of_ne hne] at hj
  cases e with
  | note e he _ => exact hsame rfl (World.retirements_note he)
  | createRecord => exact h.grow rfl (fun a hne ha => ha.imp_left (hinserted hne)) rfl
  | createQueue | allocate => exact h.grow rfl (fun a hne ha => ha.imp_right (hinserted hne)) rfl
  | @declare r hs =>
    refine ⟨h.fresh, h.stored, fun x hx => ?_⟩
    rcases List.mem_cons.1 hx with rfl | hx
    · exact h.stored _ (hsound.condemned _ (List.mem_filterMap.2 ⟨_, List.mem_cons_self .., rfl⟩))
    · exact h.retired x hx
  | link name q q' nodes hq hround =>
    obtain ⟨t, last, -, hlast, -, rfl, rfl⟩ := Queue.enqueueRound_linked hround
    exact hreplace hlast rfl rfl
  | claimFront name q q' p nodes hq hround =>
    obtain ⟨b, n, -, -, hn, -, rfl, rfl⟩ := Queue.dequeueRound_claimed hround
    exact hreplace hn rfl rfl
  | unlink =>
    refine hsame ?_ (World.retirements_noteUnlinked ..)
    rw [World.noteUnlinked_eq]
    rfl
  | claimDetached name q q' p nodes hq hclaim =>
    obtain ⟨n, hn, -, rfl, rfl⟩ := Queue.claim_taken hclaim
    exact hreplace hn rfl rfl
  | destroyObject =>
    exact h.shrink rfl (fun _ ha => (Table.isSome_of_erased ha).2) (fun _ => id) rfl
  | destroyNode | free =>
    exact h.shrink rfl (fun _ => id) (fun _ ha => (Table.isSome_of_erased ha).2) rfl
  | reorder | lose | fault | configure | storeCells | setThread | condemn | spare | settle | scan
  | abandon | acquire | publish | republish | giveName | takeName | release | enter | depart
  | count | setWaiter | help | begin | findEmpty | missDetached | giveUp | finish | freed | vacant
  | drop | discard => exact hsame rfl rfl

namespace World

theorem length_of_markAllRetired {w w' : World V} {names : List (Option Name)}
    {as : List Address} (h : w.markAllRetired names = (.ok as, w')) :
    as.length = names.length := by
  induction names generalizing w w' as with
  | nil =>
    obtain ⟨has, -⟩ := Prod.mk.inj h
    obtain rfl := Except.ok.inj has
    rfl
  | cons n rest ih =>
    cases n with
    | none => cases (Prod.mk.inj h).1
    | some n =>
      unfold markAllRetired at h
      split at h
      · cases (Prod.mk.inj h).1
      · split at h <;> rename_i hall
        · cases (Prod.mk.inj h).1
        · obtain ⟨has, -⟩ := Prod.mk.inj h
          obtain rfl := Except.ok.inj has
          exact congrArg (· + 1) (ih hall)

theorem control_begin {w : World V} {i : Instruction V} {p : Panic}
    (h : (w.begin i).control = .unwind p) :
    p = .nullRetired ∧ ∃ w' t, w.begin i = World.start w' t .retireNull := by
  obtain ⟨t, command⟩ := i
  cases command with
  | dropQueue name =>
    unfold begin start at h
    dsimp only at h
    split at h <;> cases h
  | perform | exit | atExit => cases h
  | retireNull => exact ⟨(Control.unwind.inj h).symm, _, _, rfl⟩

end World

theorem Abandoned.merged_nonempty {bags : List Bag} (h : ∀ b ∈ bags, b.isEmpty = false) {b : Bag}
    (hb : merged bags = some b) : b.isEmpty = false := by
  cases bags with
  | nil => cases hb
  | cons first rest =>
    obtain rfl := Option.some.inj hb
    refine Bool.eq_false_iff.2 fun hempty => ?_
    have hall := (foldl_merge_perm rest first).symm
    rw [(Bag.isEmpty_iff _).1 hempty] at hall
    have hfirst := (Bag.isEmpty_iff first).2 (List.append_eq_nil_iff.1 hall.eq_nil).1
    rw [h first (List.mem_cons_self ..)] at hfirst
    cases hfirst

theorem Site.leave_bags (s : Site) :
    s.leave.2.2.domain.abandoned.bags ⊆ s.domain.abandoned.bags := by
  unfold leave
  split
  · rename_i c _
    dsimp only
    rw [c.bags_flush s.domain]
    exact List.nil_subset _
  · exact List.Subset.refl _

namespace Run
variable {m : Run V}

theorem Reachable.nonNull (h : m.Reachable) : m.world.NonNull := by
  have hall : m.world.Sound m.holdings ∧ m.world.NonNull :=
    h.of_effects (P := fun w hs => w.Sound hs ∧ w.NonNull)
      ⟨World.sound_empty, World.nonNull_empty⟩
      fun _ _ _ _ _ _ e h => ⟨e.sound h.1, e.nonNull h.1 h.2⟩
  exact hall.2

/-- Also the end of a thread abandons no bag without a record. -/
theorem final_bags (m : Run V) {f : Frame V} (hf : f.isFinal = true) :
    (m.proceed f).world.domain.abandoned.bags ⊆ m.world.domain.abandoned.bags := by
  cases f with
  | leave =>
    have hbags := m.site.leave_bags
    change m.leave.world.domain.abandoned.bags ⊆ _
    unfold leave
    split
    · exact List.Subset.refl _
    · rename_i rs bag s hs
      rw [hs] at hbags
      exact hbags
  | finishExit byPanic => exact List.Subset.refl _
  | dropChain queue next =>
    change (m.dropChain queue next).world.domain.abandoned.bags ⊆ _
    unfold dropChain
    split
    · exact List.Subset.refl _
    · split
      · exact List.Subset.refl _
      · unfold dropSlot
        dsimp only
        split <;> exact List.Subset.refl _
  | _ => cases hf

theorem Reachable.abandoned_nonempty (h : m.Reachable) :
    ∀ b ∈ m.world.domain.abandoned.bags, b.isEmpty = false := by
  induction h with
  | refl => exact fun b hb => absurd hb List.not_mem_nil
  | @step n _ _ ih =>
    intro b hb
    rcases n.step_confined with hc | ⟨f, rest, -, -, hc⟩ | ⟨f, rest, -, hf, hstep⟩
    · exact (hc.world.site.abandoned b hb).elim (ih b) id
    · exact (hc.world.site.abandoned b hb).elim (ih b) id
    · rw [hstep] at hb
      exact ih b (final_bags { n with stack := rest, control := .resume } hf hb)
  | next i _ _ _ _ ih =>
    rw [World.domain_begin]
    exact ih

/-- A queue has a first and a last node, and neither is null. -/
theorem Reachable.ends (h : m.Reachable) {name : Name} {q : Queue}
    (hq : m.world.queues.get? name = some q) :
    ∃ a b, q.head = some a ∧ q.tail = some b ∧ a ≠ 0 ∧ b ≠ 0 := by
  have hvalid := h.sound.census
  have hstored {a : Address} (ha : a ∈ (m.world.census m.holdings).linked) : a ≠ 0 :=
    h.nonNull.stored a (.inr (hvalid.isSome_of_linked ha))
  obtain ⟨l, b, htail, hpath⟩ := World.path_of_census hvalid hq
  cases hhead : q.head with
  | none =>
    rw [hhead] at hpath
    generalize hl : l ++ [b] = l' at hpath
    cases hpath
    simp at hl
  | some a =>
    exact ⟨a, b, rfl, htail, hstored (World.head_mem_linked hvalid hq hhead),
      hstored (World.tail_mem_linked hvalid hq htail)⟩

theorem Reachable.isActive (h : m.Reachable) {x : Hazard} (hx : x ∈ m.hazards) :
    m.world.domain.registry.isActive x.record = true := by
  rw [Registry.isActive, h.ownedBy.published x hx]
  rfl

theorem hazards_eq (m : Run V) :
    m.hazards = m.world.hazards.values ++ m.stack.filterMap Frame.hazard? := by
  have heach (f : Frame V) : f.holdings.filterMap Holding.hazard? = f.hazard?.toList := by
    cases f with
    | enqueue e => obtain ⟨_, _ | _, _, _, _⟩ := e <;> rfl
    | dequeue d => obtain ⟨_, _ | _ | _, _⟩ := d <;> rfl
    | reclaim rest => exact Holding.filterMap_map_eq_nil _ _ (fun _ => rfl) rest
    | abandonRest bag => exact Holding.filterMap_map_eq_nil _ _ (fun _ => rfl) bag.records
    | script | acting | answering | dropChain | leave | finishExit => rfl
  rw [hazards, filterMap_holdings heach]

/-- What would have to be wrong for a check to fail is not. -/
theorem Reachable.not_provokes (h : m.Reachable) {p : Panic} (hp : p.isAssertion = true) :
    ¬ m.world.Provokes m.thread (m.stack.filterMap Frame.hazard?) p := by
  cases p with
  | inactiveRelease =>
    rintro ⟨x, hx, hidle⟩
    rw [← hazards_eq] at hx
    rw [h.isActive hx] at hidle
    cases hidle
  | emptyChain =>
    rintro ⟨name, q, hq, hnone⟩
    obtain ⟨a, b, hhead, htail, -, -⟩ := h.ends hq
    rcases hnone with hnone | hnone
    · cases hhead.symm.trans hnone
    · cases htail.symm.trans hnone
  | nullRetired | emptyBag | weakOrder => exact id
  | config | capacityOverflow | explicit => cases hp

/-- A bag that is abandoned by hand passes the check if it has records. -/
theorem abandon_control {capacity : Nat} {names : List (Option Name)} {p : Panic}
    (h : (m.abandon capacity names).control = .unwind p) (hnames : names ≠ []) :
    p.isAssertion = false := by
  unfold abandon at h
  split at h
  · cases h
  · rename_i addresses w hmark
    dsimp only at h
    split at h
    · rename_i p' hbag
      obtain rfl := Control.unwind.inj h
      rw [Bag.withCapacity_error hbag]
      rfl
    · split at h
      · rename_i bag _ p' habandon
        -- The bag has one record for each name.
        unfold Domain.abandon at habandon
        split at habandon
        · rename_i hempty
          rw [Bag.isEmpty_iff, Bag.records_foldl_push] at hempty
          have hnone := List.map_eq_nil_iff.1 (List.append_eq_nil_iff.1 hempty).2
          have hlength := World.length_of_markAllRetired hmark
          rw [hnone] at hlength
          exact absurd (List.length_eq_zero_iff.1 hlength.symm) hnames
        · cases habandon
      · cases h

theorem step_not_assertion (hm : m.Reachable) (hbypass : m.control.isBypass = false) {p : Panic}
    (hp : p.isAssertion = true) (hcontrol : m.step.control = .unwind p) :
    m.control = .unwind p := by
  by_cases hop : ∃ capacity names, m.control = .perform (.abandon capacity names)
  · obtain ⟨capacity, names, hop⟩ := hop
    have hnames : names ≠ [] := by
      rintro rfl
      rw [hop] at hbypass
      cases hbypass
    rw [step_of_perform hop] at hcontrol
    rw [abandon_control hcontrol hnames] at hp
    cases hp
  · have hop' : ∀ capacity names, m.control ≠ .perform (.abandon capacity names) :=
      fun capacity names he => hop ⟨capacity, names, he⟩
    exact (step_raises hop' hcontrol).resolve_right (hm.not_provokes hp)

theorem Reaches.told_null (h : Reaches (fun n : Run V => n.control.isBypass = false) idle m)
    {p : Panic} (hp : p.isAssertion = true) (hcontrol : m.control = .unwind p) :
    ∃ w t, m = World.start w t .retireNull := by
  induction h with
  | refl => cases hcontrol
  | @step n hn _ ih =>
    obtain ⟨w, t, rfl⟩ := ih (step_not_assertion hn.reachable hn.arrives hp hcontrol)
    exact ⟨w, t, rfl⟩
  | next i _ _ _ _ _ => exact (World.control_begin hcontrol).2

/-- No check fails, and there is nothing in the state on which one could fail. -/
structure ChecksHold (m : Run V) : Prop where
  /-- The one check that fails is that of the pointer which a thread is told to retire. -/
  raised : ∀ p, m.control = .unwind p → p.isAssertion = true →
    ∃ w t, m = World.start w t .retireNull
  released : ∀ h ∈ m.hazards, ∃ g, m.world.domain.registry.release h.record = .ok g
  abandoned : ∀ b ∈ m.world.domain.abandoned.bags, b.isEmpty = false
  adopted : ∀ b, m.world.domain.adopt.1 = some b → b.isEmpty = false
  ends : ∀ name q, m.world.queues.get? name = some q →
    ∃ a b, q.head = some a ∧ q.tail = some b ∧ a ≠ 0 ∧ b ≠ 0
  unlinked : ∀ name q a q', m.world.queues.get? name = some q →
    q.dequeueRound m.world.memory.nodes = .unlinked a q' → a ≠ 0
  retired : ∀ r ∈ m.world.retirements, r.address ≠ 0

/-- Whatever threads do, also at their end, whatever destructors do and wherever they panic, the
library finds nothing wrong with itself, unless a bag without records is abandoned past the threads
or a thread is told to retire a null pointer. -/
theorem Reaches.checks_hold (h : Reaches (fun n : Run V => n.control.isBypass = false) idle m) :
    m.ChecksHold := by
  have hm := h.reachable
  have hbags := hm.abandoned_nonempty
  refine ⟨fun p hcontrol hp => h.told_null hp hcontrol, fun x hx => ?_, hbags,
    fun b hb => Abandoned.merged_nonempty hbags hb, fun name q hq => hm.ends hq,
    fun name q a q' hq hround => ?_, hm.nonNull.retired⟩
  · rw [Registry.release, if_pos (hm.isActive hx)]
    exact ⟨_, rfl⟩
  · obtain ⟨n, next, hhead, -, -, -, -⟩ := Queue.dequeueRound_unlinked hround
    obtain ⟨a', b, hhead', -, ha, -⟩ := hm.ends hq
    obtain rfl := Option.some.inj (hhead.symm.trans hhead')
    exact ha

/-- A thread has ended and left behind a record that was protected. The next one has taken it in,
and its destructor has panicked in the middle of a removal. -/
def recovering : Run Nat := idle.following
  (tell 0 12 [.createQueue "queue" .yield, .onQueue "queue" (.enqueue 5 []),
    .onQueue "queue" (.enqueue 6 []), .create "guarded" [⟨none, .panic "no"⟩],
    .newHazard "hazard" (some "guarded"), .retire "guarded" .boxed] ++
  [(⟨0, .exit false⟩, 12)] ++
  tell 1 12 [.dropHazard "hazard", .onQueue "queue" .tryDequeue])

theorem recovering_reached :
    Reaches (fun n : Run Nat => n.control.isBypass = false) idle recovering :=
  .following (.refl (by decide)) _ (by decide +kernel)

theorem recovering_checked :
    Reaches (fun n : Run Nat => n.control.isBypass = false) idle recovering ∧
      ¬ recovering.IsCalm ∧
      recovering.world.retirements.map (·.address) = [1, 4] ∧
      recovering.world.reclamations.map (·.address) = [4] ∧ recovering.ChecksHold :=
  ⟨recovering_reached, by decide +kernel, by decide +kernel, by decide +kernel,
    recovering_reached.checks_hold⟩

end Run
end Reclaim
