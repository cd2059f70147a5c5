import Reclaim.Proofs.Transitions

/-!
Every step of a run is one of the transitions (`step_cases`). The cases are gone through once, for
each function of the steps; what is said of a step elsewhere is said of the transitions.
-/

set_option autoImplicit false

namespace Reclaim.Run
variable {V : Type} (m : Run V)

theorem install_performs (o : ConfigOptions) :
    Follows (Performs m.thread m.world (.install o)) m (m.install o) := by
  unfold install
  split
  · exact ⟨rfl, [], rfl, .panics _ rfl⟩
  · exact ⟨rfl, [], rfl, .installs _⟩

theorem countRetired_performs :
    Follows (Performs m.thread m.world .countRetired) m m.countRetired := by
  unfold countRetired
  split
  · rename_i p hp
    exact ⟨rfl, [], rfl, .overflows p rfl (Site.retiredCount_eq_error.1 hp)⟩
  · rename_i n s hs
    exact ⟨rfl, [], rfl, .counts n s hs⟩

theorem flush_performs : Follows (Performs m.thread m.world .flush) m m.flush := by
  unfold flush
  split
  · rename_i p hp
    exact ⟨rfl, [], rfl, .overflows p rfl (Site.flush_eq_error.1 hp)⟩
  · rename_i rs s hs
    exact ⟨rfl, [.reclaim rs, .answering .done], rfl, .flushes rs s hs⟩

theorem createRecord_performs (name : Name) (acts : List (Act V)) :
    Follows (Performs m.thread m.world (.create name acts)) m (m.createRecord name acts) := by
  unfold createRecord
  split
  · exact ⟨rfl, [], rfl, .answers _⟩
  · rename_i hname
    exact ⟨rfl, [], rfl, .creates name acts (by simpa [Table.contains] using hname)⟩

theorem retire_performs (name : Name) (d : Deleter) :
    Follows (Performs m.thread m.world (.retire name d)) m (m.retire name d) := by
  unfold retire
  split
  · exact ⟨rfl, [], rfl, .answers _⟩
  · rename_i a w hmark
    dsimp only
    split
    · rename_i p hp
      exact ⟨rfl, [], rfl, .retireOverflows a w p hmark (Site.retire_eq_error.1 hp)⟩
    · rename_i rs s hs
      exact ⟨rfl, [.reclaim rs, .answering .done], rfl, .retires a w rs s hmark hs⟩

theorem abandon_performs (capacity : Nat) (names : List (Option Name)) :
    Follows (Performs m.thread m.world (.abandon capacity names)) m
      (m.abandon capacity names) := by
  unfold abandon
  split
  · rename_i r w hmark
    exact ⟨rfl, [], rfl, .abandonRefused r w hmark⟩
  · rename_i addresses w hmark
    dsimp only
    split
    · rename_i p _
      exact ⟨rfl, [], rfl, .abandonFails addresses w p hmark⟩
    · rename_i bag hbag
      split
      · rename_i p _
        exact ⟨rfl, [], rfl, .abandonFails addresses w p hmark⟩
      · rename_i d hd
        obtain ⟨rfl, hne⟩ := Domain.records_of_abandon hd
        have hrecords : ((addresses.map fun a => Retired.mk a .boxed).foldl Bag.push bag).records =
            addresses.map fun a => Retired.mk a .boxed := by
          rw [Bag.records_foldl_push, Bag.records_of_withCapacity hbag, List.nil_append]
        have habandons : Performs m.thread m.world (.abandon capacity names) _ [] _ :=
          .abandons addresses w _ hmark hrecords
            (Bool.eq_false_iff.2 fun hempty => hne ((Bag.isEmpty_iff _).1 hempty))
        rw [hrecords] at habandons
        exact ⟨rfl, [], rfl, habandons⟩

theorem setCell_performs (cell : Name) (n : Option Name) :
    Follows (Performs m.thread m.world (.setCell cell n)) m (m.setCell cell n) := by
  unfold setCell
  split
  · exact ⟨rfl, [], rfl, .answers _⟩
  · exact ⟨rfl, [], rfl, .stores _ _⟩

theorem swapCell_performs (cell : Name) (n : Option Name) :
    Follows (Performs m.thread m.world (.swapCell cell n)) m (m.swapCell cell n) := by
  unfold swapCell
  split
  · exact ⟨rfl, [], rfl, .answers _⟩
  · split
    · exact ⟨rfl, [], rfl, .answers _⟩
    · exact ⟨rfl, [], rfl, .stores _ _⟩

theorem newHazard_performs (hazard : Name) (n : Option Name) :
    Follows (Performs m.thread m.world (.newHazard hazard n)) m (m.newHazard hazard n) := by
  unfold newHazard
  split
  · exact ⟨rfl, [], rfl, .answers _⟩
  · rename_i a _
    split
    · exact ⟨rfl, [], rfl, .answers _⟩
    · rename_i hname
      have hfree : m.world.hazards.get? hazard = none := by simpa [Table.contains] using hname
      split
      · rename_i p hp
        exact ⟨rfl, [], rfl, .overflows p rfl (World.createHazard_eq_error.1 hp)⟩
      · rename_i h w hcreate
        by_cases ha : a.isSome = true
        · rw [if_pos ha]
          exact ⟨rfl, [], rfl, .holds h _ w _ hfree hcreate (.inr ⟨a, rfl⟩)⟩
        · rw [if_neg ha]
          exact ⟨rfl, [], rfl, .holds h _ w _ hfree hcreate (.inl rfl)⟩

/-- What was just created can be dropped. -/
theorem tryHazard_performs : Follows (Performs m.thread m.world .tryHazard) m m.tryHazard := by
  unfold tryHazard
  split
  · rename_i p hp
    exact ⟨rfl, [], rfl, .overflows p rfl (World.createHazard_eq_error.1 hp)⟩
  · rename_i h w hcreate
    have hdrop := World.dropHazard_eq (World.createHazard_active hcreate)
      (World.hasContext_createHazard hcreate)
    rw [hdrop]
    exact ⟨rfl, [], rfl, .tries h w _ _ hcreate hdrop⟩

theorem dropHazard_performs (hazard : Name) :
    Follows (Performs m.thread m.world (.dropHazard hazard)) m (m.dropHazard hazard) := by
  unfold dropHazard
  split
  · exact ⟨rfl, [], rfl, .answers _⟩
  · rename_i h hh
    dsimp only
    split
    · rename_i p w hdrop
      exact ⟨rfl, [], rfl, .dropFails hazard h p w hh hdrop⟩
    · rename_i w hdrop
      exact ⟨rfl, [], rfl, .drops hazard h w hh hdrop⟩

theorem publishAs_performs (op : Op V) (hazard : Name) (a : Option Address) (reply : Answer V) :
    Follows (Performs m.thread m.world op) m (m.publishAs hazard a reply) := by
  unfold publishAs
  split
  · exact ⟨rfl, [], rfl, .answers _⟩
  · rename_i h hh
    exact ⟨rfl, [], rfl, .publishes hazard h a reply hh⟩

theorem protect_performs (hazard : Name) (n : Option Name) :
    Follows (Performs m.thread m.world (.protect hazard n)) m (m.protect hazard n) := by
  unfold protect
  split
  · exact ⟨rfl, [], rfl, .answers _⟩
  · exact m.publishAs_performs _ hazard _ _

theorem load_performs (hazard cell : Name) :
    Follows (Performs m.thread m.world (.load hazard cell)) m (m.load hazard cell) := by
  unfold load
  split
  · exact ⟨rfl, [], rfl, .answers _⟩
  · dsimp only
    split
    · exact ⟨rfl, [], rfl, .answers _⟩
    · exact m.publishAs_performs _ hazard _ _

theorem inspect_performs (hazard : Name) :
    Follows (Performs m.thread m.world (.inspect hazard)) m (m.inspect hazard) := by
  unfold inspect
  split <;> exact ⟨rfl, [], rfl, .answers _⟩

theorem createQueue_performs (queue : Name) (strategy : WaitStrategy) :
    Follows (Performs m.thread m.world (.createQueue queue strategy)) m
      (m.createQueue queue strategy) := by
  unfold createQueue
  split
  · exact ⟨rfl, [], rfl, .answers _⟩
  · rename_i hname
    exact ⟨rfl, [], rfl, .createsQueue queue strategy (by simpa [Table.contains] using hname)⟩

theorem exclusively_performs {α : Type} {op : Op V} {queue : Name} {q : Queue} {read : Option α}
    {f : α → Run V} (hq : m.world.queues.get? queue = some q)
    (hread : read = none → q.values m.world.memory.nodes = none)
    (hf : ∀ a, Follows (Performs m.thread m.world op) m (f a)) :
    Follows (Performs m.thread m.world op) m (m.exclusively queue q read f) := by
  unfold exclusively
  split
  · exact ⟨rfl, [], rfl, .answers _⟩
  · split
    · exact ⟨rfl, [], rfl, .strays _ hq (hread rfl)⟩
    · exact hf _

theorem enqueueAll_supplies (w : World V) (queue : Name) (s : Supply V) (reply : Answer V) :
    Follows (fun w' fs c => w' = w ∧ Supplies queue s reply fs c) m
      ((m.withWorld w).enqueueAll queue s reply) := by
  unfold enqueueAll
  split
  · rename_i hover
    exact ⟨rfl, [], rfl, rfl, .finished hover⟩
  · rename_i value rest htake
    exact ⟨rfl, [_], rfl, rfl, .next value rest htake⟩

theorem onQueue_performs (queue : Name) (action : QueueAction V) :
    Follows (Performs m.thread m.world (.onQueue queue action)) m (m.onQueue queue action) := by
  unfold onQueue
  split
  · exact ⟨rfl, [], rfl, .answers _⟩
  · rename_i q hq
    have hthere : (m.world.queues.get? queue).isSome = true := by rw [hq]; rfl
    have hfront (hnone : q.front? m.world.memory.nodes = none) :
        q.values m.world.memory.nodes = none := by
      rw [Option.eq_none_iff_forall_ne_some]
      intro vs hvs
      rw [q.front?_eq_head? _ hvs] at hnone
      cases hnone
    cases action with
    | enqueueEach count value =>
      refine (m.enqueueAll_supplies m.world queue _ _).imp ?_
      rintro w fs c ⟨rfl, hsupplies⟩
      cases hsupplies with
      | finished => exact .answers _
      | next value rest => exact .startsEnqueue _ hthere rfl
    | tryDequeueTimes times =>
      cases times with
      | zero => exact ⟨rfl, [], rfl, .answers _⟩
      | succ n => exact ⟨rfl, [_], rfl, .startsDequeue _ hthere rfl rfl⟩
    | dequeue =>
      refine m.exclusively_performs hq hfront fun front => ?_
      cases front with
      | none => exact ⟨rfl, [], rfl, .answers _⟩
      | some _ => exact ⟨rfl, [_], rfl, .startsWaiting queue q _ _ hq⟩
    | values =>
      exact m.exclusively_performs hq id fun _ => ⟨rfl, [], rfl, .answers _⟩
    | nextTimes times =>
      exact m.exclusively_performs hq id fun _ => ⟨rfl, [], rfl, .answers _⟩
    | enqueue | tryEnqueue => exact ⟨rfl, [_], rfl, .startsEnqueue _ hthere rfl⟩
    | tryDequeue => exact ⟨rfl, [_], rfl, .startsDequeue _ hthere rfl rfl⟩
    | malformed | length | bounds | describe | strategy => exact ⟨rfl, [], rfl, .answers _⟩

theorem perform_performs (op : Op V) :
    Follows (Performs m.thread m.world op) m (m.perform op) := by
  cases op with
  | install options => exact m.install_performs options
  | countRetired => exact m.countRetired_performs
  | flush => exact m.flush_performs
  | create name acts => exact m.createRecord_performs name acts
  | retire name deleter => exact m.retire_performs name deleter
  | abandon capacity names => exact m.abandon_performs capacity names
  | setCell cell n => exact m.setCell_performs cell n
  | swapCell cell n => exact m.swapCell_performs cell n
  | newHazard hazard n => exact m.newHazard_performs hazard n
  | tryHazard => exact m.tryHazard_performs
  | dropHazard hazard => exact m.dropHazard_performs hazard
  | protect hazard n => exact m.protect_performs hazard n
  | load hazard cell => exact m.load_performs hazard cell
  | reset hazard => exact m.publishAs_performs _ hazard none .done
  | inspect hazard => exact m.inspect_performs hazard
  | createQueue queue strategy => exact m.createQueue_performs queue strategy
  | onQueue queue action => exact m.onQueue_performs queue action
  | panic text => exact ⟨rfl, [], rfl, .panics _ rfl⟩
  | malformed | currentConfig | statistics | listProtected => exact ⟨rfl, [], rfl, .answers _⟩

/-! The frames of suspended work. -/

theorem dropSlot_empties (s : Slot (Payload V)) :
    Follows (fun w fs c => Empties m.world s w fs ∧ c = .resume) m (m.dropSlot s) := by
  unfold dropSlot
  split
  · rename_i hnone
    exact ⟨rfl, [], rfl, .vacant hnone, rfl⟩
  · rename_i p hp
    exact ⟨rfl, [_], rfl, .full p hp, rfl⟩

theorem reclaimNext_reclaims (rs : List Retired) :
    Follows (Reclaims m.world rs) m (m.reclaimNext rs) := by
  cases rs with
  | nil => exact ⟨rfl, [], rfl, .finished⟩
  | cons r rest =>
    unfold reclaimNext destroy
    dsimp only
    split
    · rename_i o ho
      split
      · rename_i hcustom
        exact ⟨rfl, [_, _], rfl, .object r rest o _ ho (.custom hcustom)⟩
      · rename_i hboxed
        exact ⟨rfl, [_, _], rfl, .object r rest o _ ho (.boxed hboxed)⟩
    · rename_i ho
      split
      · rename_i n hn
        obtain ⟨hthread, fs, hstack, hempties, hcontrol⟩ :=
          (((m.push (.reclaim rest)).eraseNode r.address).emit (.reclaimed r)).dropSlot_empties
            n.slot
        refine ⟨hthread, fs ++ [.reclaim rest], ?_, hcontrol ▸ .node r rest n _ fs ho hn hempties⟩
        rw [hstack, List.append_assoc]
        rfl
      · rename_i hn
        exact ⟨rfl, [_], rfl, .strays r rest ho hn⟩

theorem continueEnqueue_enqueues (e : EnqueueFrame V) :
    Follows (Enqueues m.thread m.world e) m (m.continueEnqueue e) := by
  unfold continueEnqueue
  split
  · rename_i hstage
    dsimp only
    split
    · rename_i p hp
      have henter := World.createHazard_eq_error.1 hp
      exact ⟨rfl, [], rfl, .overflows e p hstage henter⟩
    · rename_i h w hcreate
      exact ⟨rfl, [_], rfl, .allocates e h w hstage hcreate⟩
  · rename_i h a hstage
    split
    · rename_i hnone
      exact ⟨rfl, [], rfl, .lost e a hnone⟩
    · rename_i q hq
      dsimp only
      split
      · rename_i q' nodes hround
        unfold finishEnqueue
        split
        · rename_i p w hdrop
          exact ⟨rfl, [], rfl, .breaks e h a q q' nodes p w hstage hq hround hdrop⟩
        · rename_i w hdrop
          refine (m.enqueueAll_supplies
            { w with queues := w.queues.modify e.queue Queue.noteInserted } e.queue e.rest
              e.answer).imp ?_
          rintro w' fs c ⟨rfl, hsupplies⟩
          exact .links e h a q q' nodes w fs c hstage hq hround hdrop hsupplies
      · rename_i q' hround
        exact ⟨rfl, [_], rfl, .helps e h a q q' hstage hq hround⟩
      · rename_i p hround
        exact ⟨rfl, [_], rfl, .fails e h a q p hstage hq hround⟩
      · rename_i b hround
        exact ⟨rfl, [], rfl, .strays e h a b q hstage hq hround⟩

/-- What follows on the result of an attempt, where its hazard pointer can be dropped. -/
theorem finishAttempt_gives (d : DequeueFrame V) (c : CallId) (h : Hazard) (q : Queue)
    (found : Option (Payload V)) {w w' : World V} (hdrop : w.dropHazard m.thread h = (none, w')) :
    Follows (Gives d.queue q (w'.emit (.returned q.id c (found.map (·.value)))) d.goal
      (found.map (·.value))) m ((m.withWorld w).finishAttempt d c h q found) := by
  unfold finishAttempt
  dsimp only [withWorld]
  rw [hdrop]
  dsimp only
  cases hgoal : d.goal with
  | once => exact ⟨rfl, [], rfl, .once _⟩
  | several left l =>
    cases left with
    | zero => exact ⟨rfl, [], rfl, .last _ l⟩
    | succ n => exact ⟨rfl, [_], rfl, .more _ n l⟩
  | blocking epoch =>
    cases found with
    | some p => exact ⟨rfl, [], rfl, .value _ epoch⟩
    | none =>
      dsimp only [Option.map_none]
      split
      · exact ⟨rfl, [_], rfl, .wait epoch _ (.inr rfl)⟩
      · exact ⟨rfl, [_], rfl, .wait epoch _ (.inl rfl)⟩

theorem finishAttempt_dequeues {d : DequeueFrame V} {c : CallId} {h : Hazard} {q : Queue}
    {found : Option (Payload V)} {w : World V}
    (hdecides : Decides m.world d.queue c d.stage h w q found) :
    Follows (Dequeues m.thread m.world d) m ((m.withWorld w).finishAttempt d c h q found) := by
  rcases hdrop : w.dropHazard m.thread h with ⟨_ | p, w₂⟩
  · refine (m.finishAttempt_gives d c h q found hdrop).imp ?_
    intro w₃ fs k hgives
    exact .ends d c h q found w w₂ w₃ fs k hdecides hdrop hgives
  · have hfails : (m.withWorld w).finishAttempt d c h q found =
        ((m.withWorld w).withWorld w₂).unwind p := by
      change ((m.withWorld w).world.dropHazard (m.withWorld w).thread h) = _ at hdrop
      rw [finishAttempt, hdrop]
    rw [hfails]
    exact ⟨rfl, [], rfl, .breaks d c h q found w w₂ p hdecides hdrop⟩

theorem continueDequeue_dequeues (d : DequeueFrame V) :
    Follows (Dequeues m.thread m.world d) m (m.continueDequeue d) := by
  obtain ⟨name, stage, goal⟩ := d
  unfold continueDequeue
  split
  · rename_i hnone
    exact ⟨rfl, [], rfl, .lost _ 0 hnone⟩
  · rename_i q hq
    have hthere : (m.world.queues.get? name).isSome = true := by rw [hq]; rfl
    cases stage with
    | start =>
      dsimp only
      split
      · rename_i p hp
        exact ⟨rfl, [], rfl, .overflows _ p hthere rfl (World.createHazard_eq_error.1 hp)⟩
      · rename_i h w hcreate
        exact ⟨rfl, [_], rfl, .begins _ h w hthere rfl hcreate⟩
    | round c h =>
      dsimp only
      split
      · rename_i p q' nodes hround
        exact m.finishAttempt_dequeues (d := ⟨name, .round c h, goal⟩) (.front hq hround)
      · rename_i hround
        exact m.finishAttempt_dequeues (d := ⟨name, .round c h, goal⟩) (.empty hq hround)
      · rename_i q' hround
        exact ⟨rfl, [_], rfl, .helps _ c h q q' rfl hq hround⟩
      · rename_i hround
        exact ⟨rfl, [_], rfl, .again _ c h q rfl hq (.inl hround)⟩
      · rename_i hround
        exact ⟨rfl, [_], rfl, .again _ c h q rfl hq (.inr hround)⟩
      · rename_i p hround
        exact ⟨rfl, [_], rfl, .fails _ c h q p rfl hq hround⟩
      · rename_i a hround
        exact ⟨rfl, [], rfl, .strays _ c h a q rfl hq hround⟩
      · rename_i a q' hround
        split
        · rename_i p hp
          have henter := Site.retire_eq_error.1 hp
          exact ⟨rfl, [_], rfl, .unlinkOverflows _ c h q q' a p rfl hq hround henter⟩
        · rename_i rs s hs
          exact ⟨rfl, [_, _], rfl, .unlinks _ c h q q' a rs s rfl hq hround hs⟩
    | unlinked c h a =>
      dsimp only
      split
      · rename_i p q' nodes hclaim
        exact m.finishAttempt_dequeues (d := ⟨name, .unlinked c h a, goal⟩) (.detached hq hclaim)
      · rename_i hclaim
        exact ⟨rfl, [_], rfl, .claimRefused _ c h a q rfl hq hclaim⟩
      · rename_i b hclaim
        exact ⟨rfl, [], rfl, .claimStrays _ c h a b q rfl hq hclaim⟩

theorem proceed_proceeds (f : Frame V) :
    Follows (Proceeds m.thread m.world f) m (m.proceed f) := by
  cases f with
  | script acts =>
    cases acts with
    | nil => exact ⟨rfl, [], rfl, .scriptOver⟩
    | cons act rest =>
      obtain ⟨label, op⟩ := act
      exact ⟨rfl, [_], rfl, .acts label op rest⟩
  | acting label rest => exact ⟨rfl, [_], rfl, .acted label rest⟩
  | reclaim rest => exact (m.reclaimNext_reclaims rest).imp fun _ _ _ => .reclaims
  | answering a => exact ⟨rfl, [], rfl, .answers a⟩
  | enqueue e => exact (m.continueEnqueue_enqueues e).imp fun _ _ _ => .enqueues
  | dequeue d => exact (m.continueDequeue_dequeues d).imp fun _ _ _ => .dequeues
  | dropChain queue next =>
    cases next with
    | none => exact ⟨rfl, [], rfl, .chainOver queue⟩
    | some a =>
      unfold proceed dropChain
      dsimp only
      split
      · rename_i hnone
        exact ⟨rfl, [], rfl, .chainStrays queue a hnone⟩
      · rename_i n hn
        obtain ⟨hthread, fs, hstack, hempties, hcontrol⟩ :=
          (((m.push (.dropChain queue n.next)).eraseNode a).emit
            (.nodeFreed queue a (n.slot.value?.map (·.value)))).dropSlot_empties n.slot
        refine ⟨hthread, fs ++ [.dropChain queue n.next], ?_,
          hcontrol ▸ .frees queue a n _ fs hn hempties⟩
        rw [hstack, List.append_assoc]
        rfl
  | leave =>
    unfold proceed leave
    dsimp only
    split
    · rename_i hleave
      exact ⟨rfl, [], rfl, .stays (Site.leave_without hleave)⟩
    · rename_i rs bag s hleave
      exact ⟨rfl, [_, _], rfl, .leaves rs bag s hleave⟩
  | abandonRest bag =>
    unfold proceed abandonRest
    dsimp only
    split
    · rename_i hempty
      exact ⟨rfl, [], rfl, .keepsNothing bag hempty⟩
    · rename_i hbag
      rw [Domain.abandon, if_neg hbag]
      exact ⟨rfl, [], rfl, .abandons bag (Bool.eq_false_iff.2 hbag)⟩
  | finishExit byPanic => exact ⟨rfl, [], rfl, .exits byPanic⟩

theorem receive_follows (a : Answer V) (f : Frame V) :
    Follows (Transition m.thread m.world (.receive a f)) m (m.receive a f) := by
  cases f with
  | acting label rest => exact ⟨rfl, [_], rfl, .acted a label rest⟩
  | script | reclaim | answering | enqueue | dequeue | dropChain | leave | abandonRest
  | finishExit => exact ⟨rfl, [_], rfl, .passesOn a _ (by rintro _ _ ⟨⟩)⟩

theorem unwindThrough_follows (p : Panic) (f : Frame V) :
    Follows (Transition m.thread m.world (.unwind p f)) m (m.unwindThrough p f) := by
  cases f with
  | acting label rest =>
    unfold unwindThrough
    dsimp only
    split
    · rename_i hexiting
      exact ⟨rfl, [_], rfl, .catches p label rest (by simpa [isExiting] using hexiting)⟩
    · exact ⟨rfl, [], rfl, .passesThrough p _ rfl⟩
  | enqueue e =>
    obtain ⟨name, _ | ⟨h, a⟩, current, rest, reply⟩ := e
    · exact ⟨rfl, [], rfl, .passesThrough p _ rfl⟩
    · exact ⟨rfl, [], rfl, .releases p _ h rfl⟩
  | dequeue d =>
    obtain ⟨name, _ | ⟨c, h⟩ | ⟨c, h, a⟩, goal⟩ := d
    · exact ⟨rfl, [], rfl, .passesThrough p _ rfl⟩
    · exact ⟨rfl, [], rfl, .releases p _ h rfl⟩
    · exact ⟨rfl, [], rfl, .releases p _ h rfl⟩
  | script | reclaim | answering | dropChain | leave | abandonRest | finishExit =>
    exact ⟨rfl, [], rfl, .passesThrough p _ rfl⟩

variable {m}

theorem step_of_perform {op : Op V} (hcontrol : m.control = .perform op) :
    m.step = m.perform op := by
  unfold step
  rw [hcontrol]

theorem step_of_resume {f : Frame V} {rest : List (Frame V)} (hstack : m.stack = f :: rest)
    (hcontrol : m.control = .resume) :
    m.step = proceed { m with stack := rest, control := .resume } f := by
  obtain ⟨w, t, stack, control⟩ := m
  cases hstack
  cases hcontrol
  rfl

variable (m)

/-- Where there is nothing left to do a step changes nothing. -/
theorem step_cases : m.step = m ∨
    ∃ cue rest, m.control = cue.control ∧ m.stack = cue.frames ++ rest ∧
      Follows (Transition m.thread m.world cue) { m with stack := rest } m.step := by
  unfold step
  split
  · rename_i op hcontrol
    exact .inr ⟨.perform op, m.stack, hcontrol, rfl,
      (m.perform_performs op).imp fun _ _ _ => .performs⟩
  · rename_i f rest hcontrol hstack
    exact .inr ⟨.proceed f, rest, hcontrol, hstack,
      (proceed_proceeds _ f).imp fun _ _ _ => .proceeds⟩
  · rename_i a f rest hcontrol hstack
    exact .inr ⟨.receive a f, rest, hcontrol, hstack,
      receive_follows { m with stack := rest } a f⟩
  · rename_i p f rest hcontrol hstack
    exact .inr ⟨.unwind p f, rest, hcontrol, hstack,
      unwindThrough_follows { m with stack := rest } p f⟩
  · exact .inl rfl

end Reclaim.Run
