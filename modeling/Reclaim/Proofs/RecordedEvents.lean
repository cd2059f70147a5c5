import Reclaim.Proofs.QueueRounds
import Reclaim.Proofs.StepCases

/-!
Which step an event comes from. Only the end of an attempt to remove a value is recorded as its
return, and then the value goes to whoever has asked for it (`Run.EndsAttempt`). Only the call of a
deleter is recorded as a reclamation, and then the record is gone and the destructor of what it was
comes next (`Run.Destroys`).
-/

set_option autoImplicit false

namespace Reclaim
variable {V : Type}

/-- Neither the return of an attempt nor a part of a reclamation. -/
def Event.isPlain : Event V → Bool
  | .returned _ _ _ | .reclaimed _ | .deleterCalled _ | .recordDropped _ => false
  | _ => true

def Retired.told (r : Retired) (name : Name) : List (Event V) :=
  match r.deleter with
  | .boxed => []
  | .custom => [.deleterCalled name]

/-- What an answer to a removal gives, or to several made together, the last result first. -/
def Answer.results : Answer V → List (Option V)
  | .taken v => [v]
  | .takenEach vs => vs.reverse
  | .value v => [some v]
  | _ => []

def World.Notes (w w' : World V) : Prop :=
  ∃ new, w'.history = new ++ w.history ∧ new.all Event.isPlain = true

namespace World
variable {w w₁ w' : World V} {t : ThreadId}

namespace Notes

theorem same (h : w'.history = w.history) : w.Notes w' := ⟨[], h, rfl⟩

theorem trans (h : w.Notes w₁) (h' : w₁.Notes w') : w.Notes w' := by
  obtain ⟨new, hnew, hplain⟩ := h
  obtain ⟨new', hnew', hplain'⟩ := h'
  refine ⟨new' ++ new, ?_, ?_⟩
  · rw [hnew', hnew, List.append_assoc]
  · rw [List.all_append, hplain', hplain]
    rfl

theorem after (h' : w₁.Notes w') (h : w.Notes w₁) : w.Notes w' := h.trans h'

theorem one (e : Event V) (he : e.isPlain = true) (h : w'.history = e :: w.history) :
    w.Notes w' :=
  ⟨[e], h, by rw [List.all_cons, he]; rfl⟩

theorem retiring (w : World V) (rs : List Retired) :
    w.Notes (rs.foldl (fun w r => w.emit (.retired r)) w) := by
  induction rs generalizing w with
  | nil => exact .same rfl
  | cons r rs ih => exact (ih (w.emit (.retired r))).after (.one (.retired r) rfl rfl)

theorem noteUnlinked (w : World V) (i : QueueId) (c : CallId) (a : Address) :
    w.Notes (w.noteUnlinked i c a) := by
  unfold World.noteUnlinked
  split
  · exact .one _ rfl rfl
  · exact .same rfl

theorem createHazard {h : Hazard} (e : w.createHazard t = .ok (h, w')) : w.Notes w' := by
  obtain ⟨i, s, -, -, rfl⟩ := World.createHazard_eq e
  exact .one (.hazardCreated i) rfl rfl

theorem dropHazard {h : Hazard} {r : Option Panic} (e : w.dropHazard t h = (r, w')) :
    w.Notes w' := by
  cases World.dropHazard_drops e with
  | refused => exact .same rfl
  | forgotten => exact .one (.hazardDropped h.record) rfl rfl
  | cached => exact .one (.hazardDropped h.record) rfl rfl

end Notes

/-- The queue of that name, by the id that no other queue has. -/
def queueId? (w : World V) (name : Name) : Option QueueId := (w.queues.get? name).map (·.id)

theorem queueId?_of_get? {name : Name} {q : Queue} (hq : w.queues.get? name = some q) :
    w.queueId? name = some q.id := by
  rw [queueId?, hq]
  rfl

end World

namespace Frame

def found : Frame V → List (Option V)
  | .dequeue d => d.goal.found
  | _ => []

/-- An attempt was made for the same as one of the frames `fs`, and has what was found until then.
There may be one more result, which has been recorded on the way to `w'`. -/
def Inherits (w w' : World V) (fs : List (Frame V)) (d : DequeueFrame V) : Prop :=
  d.goal.found = [] ∨ ∃ d₀, .dequeue d₀ ∈ fs ∧ d₀.queue = d.queue ∧
    (d.goal.found = d₀.goal.found ∨
      ∃ i c v new, w.queueId? d.queue = some i ∧
        w'.history = .returned i c v :: (new ++ w.history) ∧ d.goal.found = v :: d₀.goal.found)

end Frame

section transitions
variable {t : ThreadId} {w w' : World V} {fs : List (Frame V)} {k : Control V}

theorem Performs.notes {op : Op V} (h : Performs t w op w' fs k) :
    w.Notes w' ∧ ∀ f ∈ fs, f.found = [] := by
  cases h with
  | answers | panics | strays | overflows | installs | counts | creates | stores | publishes =>
    exact ⟨.same rfl, List.forall_mem_nil _⟩
  | flushes => exact ⟨.same rfl, by rintro f (_ | ⟨_, _ | ⟨_, ⟨⟩⟩⟩) <;> rfl⟩
  | retireOverflows a w₁ p hmark =>
    obtain ⟨e, -, -, -, rfl⟩ := World.markRetired_spec hmark
    exact ⟨.same rfl, List.forall_mem_nil _⟩
  | retires a w₁ rs s hmark =>
    obtain ⟨e, -, -, -, rfl⟩ := World.markRetired_spec hmark
    exact ⟨.one _ rfl rfl, by rintro f (_ | ⟨_, _ | ⟨_, ⟨⟩⟩⟩) <;> rfl⟩
  | abandonRefused r w₁ hmark =>
    obtain ⟨records, rfl⟩ := World.records_markAllRetired hmark
    exact ⟨.same rfl, List.forall_mem_nil _⟩
  | abandonFails as w₁ p hmark =>
    obtain ⟨records, rfl⟩ := World.records_markAllRetired hmark
    exact ⟨.same rfl, List.forall_mem_nil _⟩
  | abandons as w₁ b hmark =>
    obtain ⟨records, rfl⟩ := World.records_markAllRetired hmark
    exact ⟨(World.Notes.retiring _ b.records).after (.same rfl), List.forall_mem_nil _⟩
  | holds h h' w₁ w₂ _ hcreate hpublish =>
    have hcreated : w.Notes w₁ := .createHazard hcreate
    rcases hpublish with hnot | ⟨a, hpublish⟩
    · obtain ⟨rfl, rfl⟩ := Prod.mk.inj hnot
      exact ⟨hcreated.trans (.same rfl), List.forall_mem_nil _⟩
    · obtain ⟨rfl, rfl⟩ := Prod.mk.inj hpublish
      exact ⟨hcreated.trans (.same rfl), List.forall_mem_nil _⟩
  | tries h w₁ w₂ a hcreate hdrop =>
    exact ⟨(World.Notes.createHazard hcreate).trans (.dropHazard hdrop), List.forall_mem_nil _⟩
  | drops hazard h w₁ _ hdrop | dropFails hazard h p w₁ _ hdrop =>
    exact ⟨(World.Notes.dropHazard hdrop).after (.same rfl), List.forall_mem_nil _⟩
  | createsQueue => exact ⟨.one (.nodeAllocated w.memory.fresh) rfl rfl, List.forall_mem_nil _⟩
  | startsEnqueue => exact ⟨.same rfl, List.forall_mem_singleton.2 rfl⟩
  | startsDequeue d _ _ hnone => exact ⟨.same rfl, List.forall_mem_singleton.2 hnone⟩
  | startsWaiting => exact ⟨.same rfl, List.forall_mem_singleton.2 rfl⟩

theorem Empties.adds {s : Slot (Payload V)} (h : Empties w s w' fs) :
    w' = { w with history := (s.value?.toList.map fun p => .valueDropped p.value) ++ w.history } ∧
      fs = s.value?.toList.map fun p => .script p.acts := by
  cases h with
  | vacant hnone =>
    rw [hnone]
    exact ⟨rfl, rfl⟩
  | full p hp =>
    rw [hp]
    exact ⟨rfl, rfl⟩

theorem Empties.notes {s : Slot (Payload V)} (h : Empties w s w' fs) :
    w.Notes w' ∧ ∀ f ∈ fs, f.found = [] := by
  obtain ⟨rfl, rfl⟩ := h.adds
  cases s.value? with
  | none => exact ⟨.same rfl, List.forall_mem_nil _⟩
  | some p => exact ⟨.one (.valueDropped p.value) rfl rfl, List.forall_mem_singleton.2 rfl⟩

theorem Supplies.found {queue : Name} {rest : Supply V} {reply : Answer V}
    (h : Supplies queue rest reply fs k) : ∀ f ∈ fs, f.found = [] := by
  cases h with
  | finished => exact List.forall_mem_nil _
  | next => exact List.forall_mem_singleton.2 rfl

theorem Enqueues.notes {e : EnqueueFrame V} (h : Enqueues t w e w' fs k) :
    w.Notes w' ∧ ∀ f ∈ fs, f.found = [] := by
  cases h with
  | lost | strays => exact ⟨.same rfl, List.forall_mem_nil _⟩
  | fails | helps => exact ⟨.same rfl, List.forall_mem_singleton.2 rfl⟩
  | overflows => exact ⟨.one (.nodeAllocated w.memory.fresh) rfl rfl, List.forall_mem_nil _⟩
  | allocates h w₁ _ hcreate =>
    exact ⟨(World.Notes.createHazard hcreate).after (.one (.nodeAllocated w.memory.fresh) rfl rfl),
      List.forall_mem_singleton.2 rfl⟩
  | breaks h a q q' nodes p w₁ _ _ _ hdrop =>
    exact ⟨(World.Notes.dropHazard hdrop).after (.one (.linked q'.id a e.current.value) rfl rfl),
      List.forall_mem_nil _⟩
  | links h a q q' nodes w₁ _ _ _ _ _ hdrop hsupplies =>
    have hdropped : w.Notes w₁ :=
      (World.Notes.dropHazard hdrop).after (.one (.linked q'.id a e.current.value) rfl rfl)
    exact ⟨hdropped.trans (.same rfl), hsupplies.found⟩

theorem Decides.notes {name : Name} {c : CallId} {stage : DequeueStage} {h : Hazard} {q : Queue}
    {found : Option (Payload V)} (hd : Decides w name c stage h w' q found) : w.Notes w' := by
  cases hd with
  | front => exact .one _ rfl rfl
  | empty | detached => exact .same rfl

theorem Decides.queueId? {name : Name} {c : CallId} {stage : DequeueStage} {h : Hazard}
    {q : Queue} {found : Option (Payload V)} (hd : Decides w name c stage h w' q found) :
    w.queueId? name = some q.id := by
  cases hd with
  | front hq hround =>
    obtain ⟨b, n, -, -, -, -, rfl, -⟩ := Queue.dequeueRound_claimed hround
    have hid := World.queueId?_of_get? hq
    exact hid
  | empty hq => exact World.queueId?_of_get? hq
  | detached hq hclaim =>
    obtain ⟨n, -, -, rfl, -⟩ := Queue.claim_taken hclaim
    have hid := World.queueId?_of_get? hq
    exact hid

theorem Gives.history {queue : Name} {q : Queue} {goal : Goal V} {v : Option V}
    (h : Gives queue q w goal v w' fs k) : w'.history = w.history := by
  cases h <;> rfl

theorem Gives.found {queue : Name} {q : Queue} {goal : Goal V} {v : Option V} {d : DequeueFrame V}
    (h : Gives queue q w goal v w' fs k) (hd : .dequeue d ∈ fs) :
    d.goal.found = [] ∨ d.queue = queue ∧ d.goal.found = v :: goal.found := by
  cases h with
  | once | last | value => cases hd
  | more =>
    obtain rfl := Frame.dequeue.inj (List.mem_singleton.1 hd)
    exact .inr ⟨rfl, rfl⟩
  | wait =>
    obtain rfl := Frame.dequeue.inj (List.mem_singleton.1 hd)
    exact .inl rfl

theorem Gives.results {queue : Name} {q : Queue} {goal : Goal V} {v : Option V} {a : Answer V}
    (h : Gives queue q w goal v w' fs (.answer a)) : a.results = v :: goal.found := by
  cases h with
  | once | value => rfl
  | last _ found => exact List.reverse_reverse (v :: found)
  | wait _ _ hc => rcases hc with hc | hc <;> cases hc

/-- Unless an attempt comes to its end it gives no answer, and its frame keeps what was found. -/
theorem Dequeues.notes_or_gives {d : DequeueFrame V} (h : Dequeues t w d w' fs k) :
    (w.Notes w' ∧ (∀ a, k ≠ .answer a) ∧
      ∀ d', .dequeue d' ∈ fs → d'.queue = d.queue ∧ d'.goal.found = d.goal.found) ∨
      ∃ c x q found w₁ w₂, Decides w d.queue c d.stage x w₁ q found ∧
        Gives d.queue q w₂ d.goal (found.map (·.value)) w' fs k ∧
        ∃ new, w'.history = .returned q.id c (found.map (·.value)) :: (new ++ w.history) ∧
          new.all Event.isPlain = true := by
  have hnone : ∀ d', .dequeue d' ∈ ([] : List (Frame V)) →
      d'.queue = d.queue ∧ d'.goal.found = d.goal.found := fun _ hd' => absurd hd' List.not_mem_nil
  have hkeeps (stage : DequeueStage) : ∀ d', .dequeue d' ∈ [Frame.dequeue { d with stage }] →
      d'.queue = d.queue ∧ d'.goal.found = d.goal.found := by
    intro d' hd'
    obtain rfl := Frame.dequeue.inj (List.mem_singleton.1 hd')
    exact ⟨rfl, rfl⟩
  cases h with
  | lost | overflows | strays | claimStrays =>
    exact .inl ⟨.same rfl, by rintro _ ⟨⟩, hnone⟩
  | fails | helps | again | claimRefused =>
    exact .inl ⟨.same rfl, by rintro _ ⟨⟩, hkeeps _⟩
  | begins h w₁ _ _ hcreate =>
    exact .inl ⟨(World.Notes.createHazard hcreate).trans (.same rfl),
      by rintro _ ⟨⟩, hkeeps _⟩
  | unlinkOverflows =>
    exact .inl ⟨(World.Notes.noteUnlinked ..).after (.same rfl), by rintro _ ⟨⟩,
      hkeeps _⟩
  | unlinks c h q q' a =>
    have hunlinked : w.Notes (((w.publish h q.head).2.setQueue d.queue q').noteUnlinked q.id c a) :=
      (World.Notes.noteUnlinked ..).after (.same rfl)
    refine .inl ⟨hunlinked.trans (.one (.retired ⟨a, .boxed⟩) rfl rfl),
      by rintro _ ⟨⟩, fun d' hd' => ?_⟩
    exact hkeeps _ d' ((List.mem_cons.1 hd').resolve_left (by rintro ⟨⟩))
  | breaks c h q found w₁ _ p hdecides hdrop =>
    exact .inl ⟨hdecides.notes.trans (.dropHazard hdrop), by rintro _ ⟨⟩, hnone⟩
  | ends c h q found w₁ w₂ _ _ _ hdecides hdrop hgives =>
    obtain ⟨new, hnew, hplain⟩ := hdecides.notes.trans (.dropHazard hdrop)
    refine .inr ⟨c, h, q, found, w₁, _, hdecides, hgives, new, ?_, hplain⟩
    rw [hgives.history, ← hnew]
    rfl

/-- A deleter is called unless there is nothing left to reclaim. -/
theorem Reclaims.destroys {r : Retired} {rest : List Retired}
    (h : Reclaims w (r :: rest) w' fs k) :
    w' = w ∧ fs = [.reclaim rest] ∨
      (∃ o, w.memory.objects.get? r.address = some o ∧
        w'.memory.objects = w.memory.objects.erase r.address ∧
        w'.records = w.records.modify o.name (fun e => { e with gone := true }) ∧
        w'.history = .recordDropped o.name :: (r.told o.name ++ .reclaimed r :: w.history) ∧
        fs = [.script o.acts, .reclaim rest] ∧ k = .resume) ∨
      ∃ n, w.memory.objects.get? r.address = none ∧ w.memory.nodes.get? r.address = some n ∧
        w'.memory.nodes = w.memory.nodes.erase r.address ∧
        w'.history = (n.slot.value?.toList.map fun p => .valueDropped p.value) ++
          .reclaimed r :: w.history ∧
        fs = (n.slot.value?.toList.map fun p => .script p.acts) ++ [.reclaim rest] ∧
        k = .resume := by
  cases h with
  | object _ _ o w₁ ho htells =>
    refine .inr (.inl ⟨o, ho, ?_⟩)
    cases htells with
    | boxed hboxed => exact ⟨rfl, rfl, by rw [Retired.told, hboxed]; rfl, rfl, rfl⟩
    | custom hcustom => exact ⟨rfl, rfl, by rw [Retired.told, hcustom]; rfl, rfl, rfl⟩
  | node _ _ n w₁ fs ho hn hempties =>
    obtain ⟨rfl, rfl⟩ := hempties.adds
    exact .inr (.inr ⟨n, ho, hn, rfl, rfl, rfl, rfl⟩)
  | strays => exact .inl ⟨rfl, rfl⟩

theorem Reclaims.found {rs : List Retired} (h : Reclaims w rs w' fs k) :
    ∀ f ∈ fs, f.found = [] := by
  cases h with
  | finished => exact List.forall_mem_nil _
  | object => exact List.forall_mem_cons.2 ⟨rfl, List.forall_mem_singleton.2 rfl⟩
  | node r rest n w₁ fs _ _ hempties =>
    exact List.forall_mem_append.2 ⟨hempties.notes.2, List.forall_mem_singleton.2 rfl⟩
  | strays => exact List.forall_mem_singleton.2 rfl

/-- Any frame but those that call deleters and those of attempts to remove a value. -/
theorem Proceeds.notes {f : Frame V} (h : Proceeds t w f w' fs k)
    (hreclaim : ∀ r rest, f ≠ .reclaim (r :: rest)) (hdequeue : ∀ d, f ≠ .dequeue d) :
    w.Notes w' := by
  cases h with
  | scriptOver | acts | answers | chainOver | chainStrays | stays | leaves | keepsNothing
  | abandons | exits => exact .same rfl
  | acted label => exact .one (.acted label .done) rfl rfl
  | reclaims h =>
    cases h with
    | finished => exact .same rfl
    | object | node | strays => exact absurd rfl (hreclaim _ _)
  | enqueues h => exact h.notes.1
  | dequeues => exact absurd rfl (hdequeue _)
  | frees i a n w₁ fs hn hempties => exact hempties.notes.1.after (.one (.nodeFreed i a _) rfl rfl)

theorem Proceeds.found {f : Frame V} (h : Proceeds t w f w' fs k)
    (hdequeue : ∀ d, f ≠ .dequeue d) : ∀ f ∈ fs, f.found = [] := by
  cases h with
  | scriptOver | answers | chainOver | chainStrays | stays | keepsNothing | abandons | exits =>
    exact List.forall_mem_nil _
  | acts | acted => exact List.forall_mem_singleton.2 rfl
  | reclaims h => exact h.found
  | enqueues h => exact h.notes.2
  | dequeues => exact absurd rfl (hdequeue _)
  | frees i a n w₁ fs hn hempties =>
    exact List.forall_mem_append.2 ⟨hempties.notes.2, List.forall_mem_singleton.2 rfl⟩
  | leaves => exact List.forall_mem_cons.2 ⟨rfl, List.forall_mem_singleton.2 rfl⟩

end transitions

namespace Run

/-- With its next step an attempt to remove a value comes to its result `v`, which is the answer,
the last of the results that are answered together, or kept for that, as `Gives` tells. -/
structure EndsAttempt (m : Run V) (i : QueueId) (c : CallId) (v : Option V) : Prop where
  resumed : m.control = .resume
  given : ∃ d rest x q found w₁ w₂, m.stack = .dequeue d :: rest ∧
    m.world.queueId? d.queue = some i ∧ q.id = i ∧ found.map (·.value) = v ∧
    Decides m.world d.queue c d.stage x w₁ q found ∧
    Follows (Gives d.queue q w₂ d.goal v) { m with stack := rest } m.step
  recorded : ∃ new, m.step.world.history = .returned i c v :: (new ++ m.world.history) ∧
    new.all Event.isPlain = true

/-- With its next step the thread calls the deleter of `r`. Where `r` was there is nothing any more,
and the destructor of what was there comes next. -/
inductive Destroys (m : Run V) (r : Retired) : Prop where
  | object (o : Object V) (rest : List Retired) (below : List (Frame V)) :
      m.control = .resume → m.stack = .reclaim (r :: rest) :: below →
      m.world.memory.objects.get? r.address = some o →
      m.step.world.memory.objects = m.world.memory.objects.erase r.address →
      m.step.world.records = m.world.records.modify o.name (fun e => { e with gone := true }) →
      m.step.world.history =
        .recordDropped o.name :: (r.told o.name ++ .reclaimed r :: m.world.history) →
      m.step.stack = .script o.acts :: .reclaim rest :: below → m.step.control = .resume →
      Destroys m r
  | node (n : Node (Payload V)) (rest : List Retired) (below : List (Frame V)) :
      m.control = .resume → m.stack = .reclaim (r :: rest) :: below →
      m.world.memory.objects.get? r.address = none →
      m.world.memory.nodes.get? r.address = some n →
      m.step.world.memory.nodes = m.world.memory.nodes.erase r.address →
      m.step.world.history = (n.slot.value?.toList.map fun p => .valueDropped p.value) ++
        .reclaimed r :: m.world.history →
      m.step.stack = (n.slot.value?.toList.map fun p => .script p.acts) ++
        .reclaim rest :: below → m.step.control = .resume →
      Destroys m r

section steps
variable {m : Run V}

theorem step_dequeue {d : DequeueFrame V} {rest : List (Frame V)} (hcontrol : m.control = .resume)
    (hstack : m.stack = .dequeue d :: rest) :
    (m.world.Notes m.step.world ∧ ∀ a, m.step.control ≠ .answer a) ∨
      ∃ i c v, m.EndsAttempt i c v := by
  obtain ⟨hthread, fs, hfs, hdequeues⟩ : Follows (Dequeues m.thread m.world d)
      { m with stack := rest, control := .resume } m.step := by
    rw [step_of_resume hstack hcontrol]
    exact continueDequeue_dequeues { m with stack := rest, control := .resume } d
  rcases hdequeues.notes_or_gives with ⟨hnotes, hsilent, -⟩ |
    ⟨c, x, q, found, w₁, w₂, hdecides, hgives, hrecorded⟩
  · exact .inl ⟨hnotes, hsilent⟩
  · exact .inr ⟨q.id, c, _, hcontrol, ⟨d, rest, x, q, found, w₁, w₂, hstack, hdecides.queueId?, rfl,
      rfl, hdecides, hthread, fs, hfs, hgives⟩, hrecorded⟩

theorem step_reclaim {r : Retired} {rs : List Retired} {rest : List (Frame V)}
    (hcontrol : m.control = .resume) (hstack : m.stack = .reclaim (r :: rs) :: rest) :
    m.world.Notes m.step.world ∨ m.Destroys r := by
  obtain ⟨hthread, fs, hfs, hreclaims⟩ : Follows (Reclaims m.world (r :: rs))
      { m with stack := rest, control := .resume } m.step := by
    rw [step_of_resume hstack hcontrol]
    exact reclaimNext_reclaims { m with stack := rest, control := .resume } (r :: rs)
  rcases hreclaims.destroys with ⟨hsame, -⟩ | ⟨o, ho, hmemory, hrecords, hhistory, rfl, hk⟩ |
    ⟨n, ho, hn, hmemory, hhistory, rfl, hk⟩
  · exact .inl (.same (by rw [hsame]))
  · exact .inr (.object o rs rest hcontrol hstack ho hmemory hrecords hhistory hfs hk)
  · rw [List.append_assoc] at hfs
    exact .inr (.node n rs rest hcontrol hstack ho hn hmemory hhistory hfs hk)

end steps

/-- What the events that a step records tell of it. -/
theorem step_notes (m : Run V) :
    m.world.Notes m.step.world ∨ (∃ i c v, m.EndsAttempt i c v) ∨ ∃ r, m.Destroys r := by
  rcases m.step_cases with hsame | ⟨cue, rest, hcontrol, hstack, hthread, fs, hstep, htransition⟩
  · exact .inl (.same (by rw [hsame]))
  · generalize hworld : m.step.world = w' at htransition ⊢
    generalize m.step.control = k at htransition
    cases htransition with
    | performs h => exact .inl h.notes.1
    | @proceeds f _ _ _ h =>
      by_cases hreclaim : ∃ r rs, f = .reclaim (r :: rs)
      · obtain ⟨r, rs, rfl⟩ := hreclaim
        exact (hworld ▸ step_reclaim hcontrol hstack).imp_right fun hr => .inr ⟨r, hr⟩
      · by_cases hdequeue : ∃ d, f = .dequeue d
        · obtain ⟨d, rfl⟩ := hdequeue
          exact (hworld ▸ step_dequeue hcontrol hstack).imp And.left .inl
        · exact .inl (h.notes (fun r rs he => hreclaim ⟨r, rs, he⟩)
            fun d he => hdequeue ⟨d, he⟩)
    | acted a label => exact .inl (.one (.acted label a) rfl rfl)
    | passesOn | passesThrough => exact .inl (.same rfl)
    | catches p label => exact .inl (.one (.acted label (.panicked p)) rfl rfl)
    | releases p f h => exact .inl (.dropHazard rfl)

/-- What is recorded after the reclamation itself can be seen from outside. -/
theorem Destroys.recorded {m : Run V} {r : Retired} (h : m.Destroys r) :
    ∃ seen, m.step.world.history = seen ++ .reclaimed r :: m.world.history ∧
      ∀ e ∈ seen, e.isVisible = true := by
  cases h with
  | object o _ _ _ _ _ _ _ hhistory =>
    refine ⟨.recordDropped o.name :: r.told o.name, hhistory, List.forall_mem_cons.2 ⟨rfl, ?_⟩⟩
    unfold Retired.told
    cases r.deleter with
    | boxed => exact List.forall_mem_nil _
    | custom => exact List.forall_mem_singleton.2 rfl
  | node n _ _ _ _ _ _ _ hhistory =>
    exact ⟨_, hhistory, List.forall_mem_map.2 fun _ _ => rfl⟩

theorem step_history (m : Run V) : m.world.history <:+ m.step.world.history := by
  rcases m.step_notes with ⟨new, hnew, -⟩ | ⟨i, c, v, hends⟩ | ⟨r, hdestroys⟩
  · exact ⟨new, hnew.symm⟩
  · obtain ⟨new, hnew, -⟩ := hends.recorded
    exact ⟨_ :: new, hnew.symm⟩
  · obtain ⟨seen, hseen, -⟩ := hdestroys.recorded
    rw [hseen]
    exact (List.suffix_cons _ _).trans (List.suffix_append _ _)

end Run

theorem World.history_begin (w : World V) (i : Instruction V) :
    (w.begin i).world.history = w.history := by
  obtain ⟨t, command⟩ := i
  cases command with
  | dropQueue name =>
    unfold begin start
    dsimp only
    split <;> rfl
  | perform | exit | atExit | retireNull => rfl

namespace Run
variable {P : Run V → Prop} {m n : Run V} {e : Event V} {l : List (Event V)}

theorem Reaches.history_suffix (h : Reaches P m n) : m.world.history <:+ n.world.history := by
  induction h with
  | refl => exact List.suffix_rfl
  | step _ _ ih => exact ih.trans (step_history _)
  | next i _ _ _ _ ih => rwa [World.history_begin]

/-- Every event was recorded by some step. -/
theorem Reaches.recorded (h : Reaches P idle m) (hl : e :: l <:+ m.world.history) :
    ∃ n, Reaches P idle n ∧ Reaches P n.step m ∧ e :: l <:+ n.step.world.history ∧
      ¬ e :: l <:+ n.world.history := by
  induction h with
  | refl => cases List.suffix_nil.1 hl
  | @step n hn hstep ih =>
    by_cases hearlier : e :: l <:+ n.world.history
    · obtain ⟨k, hk, hkn, hmoment⟩ := ih hearlier
      exact ⟨k, hk, .step hkn hstep, hmoment⟩
    · exact ⟨n, hn, .refl hstep, hl, hearlier⟩
  | next i hn ho hphase hbegin ih =>
    obtain ⟨k, hk, hkn, hmoment⟩ := ih (by rwa [World.history_begin] at hl)
    exact ⟨k, hk, .next i hkn ho hphase hbegin, hmoment⟩

/-- An event that is not among those recorded last was there before. -/
theorem suffix_of_not_mem {new old : List (Event V)} (hl : e :: l <:+ new ++ old)
    (he : e ∉ new) : e :: l <:+ old := by
  induction new with
  | nil => exact hl
  | cons e' new ih =>
    rcases List.suffix_cons_iff.1 hl with heq | hl
    · exact absurd (List.mem_cons.2 (.inl (List.cons.inj heq).1)) he
    · exact ih hl fun hmem => he (List.mem_cons_of_mem _ hmem)

theorem suffix_of_plain {new old : List (Event V)} (hl : e :: l <:+ new ++ old)
    (hnew : new.all Event.isPlain = true) (he : e.isPlain = false) : e :: l <:+ old :=
  suffix_of_not_mem hl fun hmem =>
    Bool.noConfusion (he.symm.trans (List.all_eq_true.1 hnew e hmem))

theorem suffix_of_visible {new old : List (Event V)} (hl : e :: l <:+ new ++ old)
    (hnew : ∀ e ∈ new, e.isVisible = true) (he : e.isVisible = false) : e :: l <:+ old :=
  suffix_of_not_mem hl fun hmem => Bool.noConfusion (he.symm.trans (hnew e hmem))

/-- A step that reclaims a record calls its deleter. -/
theorem destroys_of_recorded {r : Retired} (hnow : .reclaimed r :: l <:+ m.step.world.history)
    (hbefore : ¬ .reclaimed r :: l <:+ m.world.history) : m.Destroys r ∧ l = m.world.history := by
  rcases m.step_notes with ⟨new, hnew, hplain⟩ | ⟨i, c, v, hends⟩ | ⟨r', hdestroys⟩
  · exact absurd (suffix_of_plain (hnew ▸ hnow) hplain rfl) hbefore
  · obtain ⟨new, hnew, hplain⟩ := hends.recorded
    rcases List.suffix_cons_iff.1 (hnew ▸ hnow) with heq | hrest
    · cases (List.cons.inj heq).1
    · exact absurd (suffix_of_plain hrest hplain rfl) hbefore
  · obtain ⟨seen, hseen, hvisible⟩ := hdestroys.recorded
    rcases List.suffix_cons_iff.1 (suffix_of_visible (hseen ▸ hnow) hvisible rfl) with heq | hrest
    · obtain ⟨he, rfl⟩ := List.cons.inj heq
      obtain rfl := Event.reclaimed.inj he
      exact ⟨hdestroys, rfl⟩
    · exact absurd hrest hbefore

/-- A record that was reclaimed had its deleter called then. -/
theorem Reaches.deleter_called (h : Reaches P idle m) {r : Retired}
    (hl : .reclaimed r :: l <:+ m.world.history) :
    ∃ n, Reaches P idle n ∧ Reaches P n.step m ∧ n.Destroys r ∧ n.world.history = l := by
  obtain ⟨n, hn, hnm, hnow, hbefore⟩ := h.recorded hl
  obtain ⟨hdestroys, rfl⟩ := destroys_of_recorded hnow hbefore
  exact ⟨n, hn, hnm, hdestroys, rfl⟩

end Run
end Reclaim
