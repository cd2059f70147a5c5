import Reclaim.Proofs.RecordMoves
import Reclaim.Proofs.ThreadEnds

/-!
Where retired records go while the thread has not begun its end. Whatever destructors do and
wherever they panic, nothing is abandoned: a step that retires a record puts it into the bag of the
thread, and with it everything that other threads have left behind
(`Run.Reachable.abandoned_adopted`).
-/

set_option autoImplicit false

namespace Reclaim
variable {V : Type}

def Control.abandons : Control V → Bool
  | .perform (.abandon _ _) => true
  | _ => false

def Control.retired? : Control V → Option (Name × Deleter)
  | .perform (.retire name d) => some (name, d)
  | _ => none

theorem Control.eq_of_retired? {c : Control V} {name : Name} {d : Deleter}
    (h : c.retired? = some (name, d)) : c = .perform (.retire name d) := by
  unfold retired? at h
  split at h
  · obtain ⟨rfl, rfl⟩ := Prod.mk.inj (Option.some.inj h)
    rfl
  · cases h

namespace Run

/-- The thread has not begun its end, and no bag is abandoned by hand. -/
def IsOrdinary (m : Run V) : Prop :=
  (m.world.thread m.thread).phase = .running ∧ m.control.abandons = false

instance (m : Run V) : Decidable m.IsOrdinary :=
  inferInstanceAs (Decidable (_ ∧ _))

/-- On the way to `n` the thread has taken the records `new` that it retires, and everything that
was abandoned, into its bag. The records `rs` that are drained from it are handed out last, and no
deleter has been called yet. -/
structure Gathers (m : Run V) (new rs : List Retired) (n : Run V) : Prop where
  site : m.site.Gathers new rs n.site
  retirements : n.world.retirements = new ++ m.world.retirements
  reclamations : n.world.reclamations = m.world.reclamations
  handed : ∃ rest, n.remainders = rs ++ rest ∧ rest <:+ m.remainders

/-! The end of a thread. -/

theorem IsOrdinary.not_abandons {m : Run V} (h : m.IsOrdinary) (capacity : Nat)
    (names : List (Option Name)) : m.control ≠ .perform (.abandon capacity names) := by
  intro he
  have habandons := h.2
  rw [he] at habandons
  cases habandons

theorem leave_threads (m : Run V) :
    m.leave.thread = m.thread ∧ ∀ t, (m.leave.world.thread t).phase = (m.world.thread t).phase ∧
      (t ≠ m.thread → (m.leave.world.thread t).presence = (m.world.thread t).presence) := by
  rcases m.leave_cases with ⟨-, hleave⟩ | ⟨rs, bag, s, hleave, -⟩ <;> rw [hleave]
  · exact ⟨rfl, fun t => ⟨rfl, fun _ => rfl⟩⟩
  · refine ⟨rfl, fun t => ?_⟩
    change (World.thread (m.world.setSite m.thread s) t).phase = _ ∧ (_ →
      (World.thread (m.world.setSite m.thread s) t).presence = _)
    rw [World.thread_setSite]
    split
    · rename_i ht
      subst ht
      exact ⟨rfl, fun hne => absurd rfl hne⟩
    · exact ⟨rfl, fun _ => rfl⟩

/-- A step is one of the acting thread, and no thread becomes able to run again. -/
theorem step_threads (m : Run V) :
    m.step.thread = m.thread ∧ ∀ t,
      ((m.step.world.thread t).phase = .running → (m.world.thread t).phase = .running) ∧
        (t ≠ m.thread → (m.step.world.thread t).presence = (m.world.thread t).presence) := by
  rcases m.step_confined with hc | ⟨f, rest, -, -, hc⟩ | ⟨f, rest, -, hf, hstep⟩
  · exact ⟨hc.thread, fun t => ⟨fun h => (hc.world.phases t).symm.trans h, hc.world.others t⟩⟩
  · exact ⟨hc.thread, fun t => ⟨fun h => (hc.world.phases t).symm.trans h, hc.world.others t⟩⟩
  · rw [hstep]
    cases f with
    | leave =>
      obtain ⟨hthread, hthreads⟩ := leave_threads { m with stack := rest, control := .resume }
      exact ⟨hthread, fun t => ⟨fun h => (hthreads t).1.symm.trans h, (hthreads t).2⟩⟩
    | finishExit byPanic =>
      refine ⟨rfl, fun t => ?_⟩
      change ((World.thread (m.world.setPhase m.thread .exited) t).phase = _ → _) ∧ (_ →
        (World.thread (m.world.setPhase m.thread .exited) t).presence = _)
      rw [World.presence_setPhase, World.thread_setPhase]
      refine ⟨?_, fun _ => rfl⟩
      split
      · exact Phase.noConfusion
      · exact id
    | dropChain queue next =>
      obtain ⟨hthread, hthreads, -⟩ :=
        dropChain_frames { m with stack := rest, control := .resume } queue next
      refine ⟨hthread, fun t => ?_⟩
      rw [World.thread, World.thread, show (proceed { m with stack := rest, control := .resume }
        (.dropChain queue next)).world.threads = m.world.threads from hthreads]
      exact ⟨id, fun _ => rfl⟩
    | _ => cases hf

/-- A thread that has not begun its end has not lost its context, and nothing of an end is
suspended. -/
structure Unparted (m : Run V) : Prop where
  present : ∀ t, (m.world.thread t).phase = .running → (m.world.thread t).presence ≠ .destroyed
  plain : (m.world.thread m.thread).phase = .running → m.stack.any Frame.isParting = false

theorem Unparted.step_plain {m : Run V} (h : m.Unparted) (hm : m.Reachable)
    (hphase : (m.world.thread m.thread).phase = .running) :
    m.step.stack.any Frame.isParting = false := by
  have hplain := h.plain hphase
  have hpushed {fs rest : List (Frame V)} (hfs : fs.any Frame.isParting = false)
      (hrest : rest.any Frame.isParting = false) : (fs ++ rest).any Frame.isParting = false := by
    rw [List.any_append, hfs, hrest]
    rfl
  cases m.step_moves with
  | abandons capacity names _ hstep =>
    rw [hstep]
    unfold abandon
    split
    · exact hplain
    · dsimp only
      split
      · exact hplain
      · split <;> exact hplain
  | works new rs hmoves =>
    obtain ⟨fs, hfs, -, hnone⟩ := hmoves.stack
    rw [hfs]
    exact hpushed hnone hplain
  | goesOn f rest new rs hstack _ hmoves =>
    rw [hstack, List.any_cons, Bool.or_eq_false_iff] at hplain
    obtain ⟨fs, hfs, -, hnone⟩ := hmoves.stack
    rw [hfs]
    exact hpushed hnone hplain.2
  | destroys r rs rest hstack hstep =>
    rw [hstack, List.any_cons, Bool.or_eq_false_iff] at hplain
    have hthere := not_lacks_doomed hm.sound hstack
    obtain ⟨-, -, -, -, -, fs, hfs, -, hnone⟩ := destroy_spec
      { m with stack := .reclaim rs :: rest, control := .resume } r hthere
    rw [hstep, hfs]
    exact hpushed hnone hplain.2
  | parts f rest hstack hf =>
    rw [hstack, List.any_cons, hf] at hplain
    cases hplain

theorem Unparted.step {m : Run V} (h : m.Unparted) (hm : m.Reachable) : m.step.Unparted := by
  obtain ⟨hthread, hthreads⟩ := m.step_threads
  refine ⟨fun t ht => ?_, fun hphase => ?_⟩
  · have hrunning := (hthreads t).1 ht
    by_cases hself : t = m.thread
    · subst hself
      have hpresent := h.present _ hrunning
      rcases m.step_confined with hc | ⟨f, rest, -, -, hc⟩ | ⟨f, rest, hstack, hf, hstep⟩
      · exact fun hgone => hpresent (hc.world.site.destroyed.1 hgone)
      · exact fun hgone => hpresent (hc.world.site.destroyed.1 hgone)
      · have hplain := h.plain hrunning
        rw [hstack, List.any_cons, Bool.or_eq_false_iff] at hplain
        cases f with
        | dropChain queue next =>
          obtain ⟨-, hsame, -⟩ :=
            dropChain_frames { m with stack := rest, control := .resume } queue next
          rw [hstep, World.thread, show (proceed { m with stack := rest, control := .resume }
            (.dropChain queue next)).world.threads = m.world.threads from hsame]
          exact hpresent
        | leave | finishExit => exact absurd hplain.1 Bool.noConfusion
        | _ => cases hf
    · rw [(hthreads t).2 hself]
      exact h.present t hrunning
  · rw [hthread] at hphase
    exact h.step_plain hm ((hthreads _).1 hphase)

theorem Unparted.begin {m : Run V} (h : m.Unparted) (i : Instruction V) :
    (m.world.begin i).Unparted := by
  refine ⟨fun t ht => ?_, fun hphase => ?_⟩
  · obtain ⟨hpresence, hrunning⟩ := m.world.thread_begin i t
    rw [hpresence]
    exact h.present t (hrunning ht)
  · obtain ⟨t, command⟩ := i
    cases command with
    | perform | retireNull | atExit => rfl
    | dropQueue name =>
      unfold World.begin World.start
      dsimp only
      split <;> rfl
    | exit byPanic =>
      change (World.thread ((m.world.enrol t).setPhase t .exiting) t).phase = _ at hphase
      rw [World.thread_setPhase, if_pos rfl] at hphase
      cases hphase

theorem Reachable.unparted {m : Run V} (h : m.Reachable) : m.Unparted := by
  induction h with
  | refl => exact ⟨fun _ _ => Presence.noConfusion, fun _ => rfl⟩
  | step hn _ ih => exact ih.step hn
  | next i _ _ _ _ ih => exact ih.begin i

/-! Steps of a thread that has not begun its end. -/

section ordinary
variable {m n : Run V} {new rs : List Retired}

structure Rests (m n : Run V) : Prop where
  presence : m.site.presence.SameBag n.site.presence
  abandoned : n.world.domain.abandoned = m.world.domain.abandoned
  retirements : n.world.retirements = m.world.retirements

/-- Work on top of the frames that are still there. -/
theorem Moves.rests_or_gathers {stack : List (Frame V)} (h : Moves { m with stack } new rs n)
    (hstack : stack <:+ m.stack) (hpresent : m.site.presence ≠ .destroyed)
    (hfree : m.site.presence.IsFree) : m.Rests n ∨ m.Gathers new rs n := by
  have hsite : n.site = n.world.site m.thread := congrArg n.world.site h.thread
  cases h.world.site with
  | keep hnew hrs hsame habandoned =>
    subst hnew
    exact .inl ⟨hsite ▸ hsame, habandoned, h.world.retirements⟩
  | gather hgathers =>
    refine .inr ⟨hsite ▸ hgathers, h.world.retirements, h.world.reclamations, _, h.remainders, ?_⟩
    obtain ⟨popped, hpopped⟩ := hstack
    have hall : m.remainders =
        popped.flatMap Frame.remainder ++ Run.remainders { m with stack } := by
      rw [Run.remainders, ← hpopped, List.flatMap_append, Run.remainders]
    rw [hall]
    exact List.suffix_append _ _
  | pass r hwithheld => exact absurd (hwithheld.destroyed hfree) hpresent

theorem flush_gathers {s : Site} (h : m.site.flush = .ok (rs, s))
    (hpresent : m.site.presence ≠ .destroyed) (hfree : m.site.presence.IsFree) :
    m.Gathers [] rs m.flush := by
  have hflush : m.flush = (m.setSite s).reclaiming rs .done := by
    rw [flush, h]
  have hsite : m.flush.site = s := by
    rw [hflush]
    exact congrArg (Site.mk s.domain) (m.world.presence_setSite m.thread s)
  refine ⟨hsite ▸ Site.flush_gathers h hpresent hfree, ?_, ?_, m.remainders, ?_,
    List.suffix_refl _⟩ <;> rw [hflush] <;> rfl

variable (hm : m.Reachable) (ho : m.IsOrdinary)
include hm ho

theorem step_rests_or_gathers : m.Rests m.step ∨ ∃ new rs, m.Gathers new rs m.step := by
  have hpresent : m.site.presence ≠ .destroyed := hm.unparted.present _ ho.1
  have hfree : m.site.presence.IsFree := hm.free m.thread
  have hplain := hm.unparted.plain ho.1
  cases m.step_moves with
  | abandons capacity names hop => exact absurd hop (ho.not_abandons capacity names)
  | works new rs hmoves =>
    exact (hmoves.rests_or_gathers (List.suffix_refl _) hpresent hfree).imp id fun h => ⟨_, _, h⟩
  | goesOn f rest new rs hstack _ hmoves =>
    refine (hmoves.rests_or_gathers ?_ hpresent hfree).imp id fun h => ⟨_, _, h⟩
    rw [hstack]
    exact List.suffix_cons _ _
  | destroys r rs rest hstack hstep =>
    have hthere := not_lacks_doomed hm.sound hstack
    obtain ⟨hthread, hthreads, hdomain, hretired, -, -⟩ := destroy_spec
      { m with stack := .reclaim rs :: rest, control := .resume } r hthere
    rw [← hstep] at hthread hthreads hdomain hretired
    refine .inl ⟨?_, congrArg Domain.abandoned hdomain, hretired⟩
    have hsite : m.step.site.presence = m.site.presence := by
      rw [site, World.site, World.thread, hthreads, hthread]
      rfl
    rw [hsite]
    exact .refl _
  | parts f rest hstack hf =>
    rw [hstack, List.any_cons, hf] at hplain
    cases hplain

theorem step_abandoned : m.step.world.domain.abandoned = m.world.domain.abandoned ∨
    m.step.world.domain.abandoned.bags = [] := by
  rcases step_rests_or_gathers hm ho with hrests | ⟨new, rs, hgathers⟩
  · exact .inl hrests.abandoned
  · exact .inr hgathers.site.emptied

theorem gathers_of_retired (h : m.step.world.retirements ≠ m.world.retirements) :
    ∃ new rs, m.Gathers new rs m.step :=
  (step_rests_or_gathers hm ho).resolve_left fun hrests => h hrests.retirements

end ordinary

/-- While threads that have not begun their end are at work, what is abandoned stays as it is until
all of it is taken in. -/
theorem Reaches.abandoned {m n : Run V} (hm : m.Reachable) (h : Reaches IsOrdinary m n) :
    n.world.domain.abandoned = m.world.domain.abandoned ∨
      n.world.domain.abandoned.bags = [] := by
  induction h with
  | refl => exact .inl rfl
  | @step n hn _ ih =>
    have hreachable : n.Reachable := hm.trans (hn.weaken fun _ _ => trivial)
    rcases step_abandoned hreachable hn.arrives with hsame | hempty
    · rw [hsame]
      exact ih
    · exact .inr hempty
  | next i _ _ _ _ ih =>
    rw [World.domain_begin]
    exact ih

/-- The next step retires a record, flushes the bag of the thread, or is the first that needs its
context, which may be impossible to create. -/
inductive UsesContext (m : Run V) : Prop where
  | retire {name : Name} {d : Deleter} {a : Address} {w : World V} :
      m.control = .perform (.retire name d) → m.world.markRetired name = .ok (a, w) → UsesContext m
  | unlink {d : DequeueFrame V} {rest : List (Frame V)} {c : CallId} {h : Hazard} {q q' : Queue}
      {a : Address} : m.control = .resume → m.stack = .dequeue d :: rest → d.stage = .round c h →
      m.world.queues.get? d.queue = some q →
      q.dequeueRound m.world.memory.nodes = .unlinked a q' → UsesContext m
  | flush : m.control = .perform .flush → UsesContext m
  | create : m.site.presence = .absent → m.step.site.presence ≠ .absent → UsesContext m
  | fail : m.IsCalm → m.step.control = .unwind .capacityOverflow → UsesContext m

section uses
variable {m : Run V} (hm : m.Reachable) (ho : m.IsOrdinary)
include hm ho

theorem UsesContext.gathers_or_overflows (h : m.UsesContext) :
    (∃ new rs, m.Gathers new rs m.step) ∨
      m.step.control = .unwind .capacityOverflow ∧ m.site.Overflows .capacityOverflow := by
  have hretired {r : Retired} {rs : List Retired} {stack : List (Frame V)} {n : Run V}
      (hstep : m.step = n) (hmoves : Moves { m with stack } [r] rs n) :
      ∃ new rs, m.Gathers new rs m.step := by
    refine gathers_of_retired hm ho ?_
    rw [hstep, hmoves.world.retirements]
    exact List.cons_ne_self _ _
  cases h with
  | retire hcontrol hmark =>
    rename_i name d a w
    have hstep : m.step = m.retire name d := step_of_perform hcontrol
    rcases m.retire_moves (d := d) hmark with ⟨rs, hmoves⟩ | ⟨p, hp, ⟨rfl, hoverflows⟩, -⟩
    · exact .inl (hretired hstep hmoves)
    · exact .inr ⟨hstep ▸ hp, rfl, hoverflows⟩
  | unlink hcontrol hstack hstage hq hround =>
    rename_i d rest c h q q' a
    have hstep := step_of_resume hstack hcontrol
    rcases unlinked_moves { m with stack := rest, control := .resume } hstage hq hround with
      ⟨rs, hmoves⟩ | ⟨p, hp, ⟨rfl, hoverflows⟩, -⟩
    · have hworked : Moves { m with stack := rest } [⟨a, .boxed⟩] rs _ :=
        ⟨hmoves.thread, hmoves.stack, hmoves.world⟩
      exact .inl (hretired hstep hworked)
    · exact .inr ⟨hstep ▸ hp, rfl, hoverflows⟩
  | flush hcontrol =>
    have hstep : m.step = m.flush := step_of_perform hcontrol
    cases hflush : m.site.flush with
    | error p =>
      obtain ⟨rfl, hoverflows⟩ := Site.flush_error hflush
      refine .inr ⟨?_, rfl, hoverflows⟩
      rw [hstep, Run.flush, hflush]
      rfl
    | ok x =>
      obtain ⟨rs, s⟩ := x
      exact .inl ⟨[], rs, hstep ▸ flush_gathers hflush (hm.unparted.present _ ho.1) (hm.free _)⟩
  | create habsent hcreated =>
    refine (step_rests_or_gathers hm ho).symm.imp id fun hrests => ?_
    have hsame := hrests.presence
    rw [habsent] at hsame
    generalize m.step.site.presence = p at hsame hcreated
    cases hsame
    exact absurd rfl hcreated
  | fail hcalm hfail =>
    exact .inr ⟨hfail, rfl, (step_raises ho.not_abandons hfail).resolve_left (hcalm _)⟩

/-- As long as no thread is at its end and no bag is abandoned by hand, whatever destructors do and
wherever they panic, they find no context borrowed, and nothing is abandoned: what a step retires
goes into the bag of the thread. Each time a thread retires a record, flushes its bag or needs its
context first, everything that was abandoned goes there too, before any deleter is called, and
nothing is abandoned from then on. -/
theorem Reachable.abandoned_adopted :
    (∀ n, Reaches IsOrdinary m n → n.world.Free ∧
      (n.world.domain.abandoned = m.world.domain.abandoned ∨
        n.world.domain.abandoned.bags = [])) ∧
      (m.step.world.retirements ≠ m.world.retirements → ∃ new rs, m.Gathers new rs m.step) ∧
      (m.UsesContext →
        ((∃ new rs, m.Gathers new rs m.step) ∨
          m.step.control = .unwind .capacityOverflow ∧ m.site.Overflows .capacityOverflow) ∧
        m.step.world.domain.abandoned.bags = [] ∧
        ∀ n, Reaches IsOrdinary m.step n → n.world.domain.abandoned.bags = []) := by
  refine ⟨fun n hn => ⟨(hm.trans (hn.weaken fun _ _ => trivial)).free, hn.abandoned hm⟩,
    gathers_of_retired hm ho, fun huses => ?_⟩
  have hadopts := huses.gathers_or_overflows hm ho
  have hempty : m.step.world.domain.abandoned.bags = [] := by
    rcases hadopts with ⟨new, rs, hgathers⟩ | ⟨-, -, -, hbags⟩
    · exact hgathers.site.emptied
    · rcases step_abandoned hm ho with hsame | hempty
      · rw [hsame]
        exact hbags
      · exact hempty
  refine ⟨hadopts, hempty, fun n hn => ?_⟩
  rcases hn.abandoned (.step hm trivial) with hsame | hnone
  · rw [hsame]
    exact hempty
  · exact hnone

end uses

/-- A thread has ended and left a protected record behind. Another drops a queue, and the destructor
of the value in it is about to retire a record, for which that thread needs its context first. -/
def adopting : Run Nat := idle.following
  (tell 0 9 [.create "guarded" [], .create "late" [], .createQueue "queue" .yield,
    .onQueue "queue" (.enqueue 5 [⟨none, .retire "late" .boxed⟩, ⟨none, .panic "no"⟩]),
    .newHazard "hazard" (some "guarded"), .retire "guarded" .boxed] ++
  [(⟨0, .exit false⟩, 12), (⟨1, .dropQueue "queue"⟩, 3)])

theorem adopting_reachable : adopting.Reachable :=
  .following (.refl trivial) _ (by decide +kernel)

theorem adopting_retires : adopting.control = .perform (.retire "late" .boxed) := by
  have hretired : adopting.control.retired? = some ("late", .boxed) := by decide +kernel
  exact Control.eq_of_retired? hretired

/-- The destructor panics after that. -/
theorem adopting_adopted :
    adopting.Reachable ∧ adopting.IsOrdinary ∧ adopting.stack.length = 3 ∧
      adopting.world.domain.abandoned.bags.map (·.records.map (·.address)) = [[1]] ∧
      (∃ new rs, adopting.Gathers new rs adopting.step) ∧
      Reaches IsOrdinary adopting.step (adopting.step.complete 7) ∧
      ¬ (adopting.step.complete 7).IsCalm ∧
      (adopting.step.complete 7).world.domain.abandoned.bags = [] ∧
      (adopting.step.complete 7).site.records.map (·.address) = [1] := by
  have ho : adopting.IsOrdinary := by decide +kernel
  have huses : adopting.UsesContext := by
    cases hmark : adopting.world.markRetired "late" with
    | ok x => exact .retire adopting_retires hmark
    | error r =>
      have hmarked : (adopting.world.markRetired "late").isOk = true := by decide +kernel
      rw [hmark] at hmarked
      cases hmarked
  have hon : Reaches IsOrdinary adopting.step (adopting.step.complete 7) :=
    .complete (.refl (by decide +kernel)) 7 (by decide +kernel)
  obtain ⟨-, hretired, hadopts⟩ := adopting_reachable.abandoned_adopted ho
  obtain ⟨-, -, hempty⟩ := hadopts huses
  have hgathers := hretired (by decide +kernel)
  exact ⟨adopting_reachable, ho, by decide +kernel, by decide +kernel, hgathers, hon,
    by decide +kernel, hempty _ hon, by decide +kernel⟩

end Run
end Reclaim
