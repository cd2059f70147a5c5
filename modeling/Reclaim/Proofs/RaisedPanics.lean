import Reclaim.Proofs.QueueCounters

/-!
Which panics a step can raise, and what must be wrong for it. A context cannot be created only where
nothing was abandoned, and every other check of the library fails only on a hazard pointer whose
record is not its own, or on a queue without a node (`Run.step_raises`).
-/

set_option autoImplicit false

namespace Reclaim
variable {V : Type}

namespace Queue
variable {q : Queue} {nodes : Nodes V} {p : Panic}

theorem enqueueRound_failed {a : Address} (h : q.enqueueRound nodes a = .failed p) :
    p = .emptyChain ∧ q.tail = none := by
  unfold enqueueRound at h
  split at h
  · rename_i htail
    exact ⟨(EnqueueRound.failed.inj h).symm, htail⟩
  · split at h
    · cases h
    · split at h <;> cases h

theorem dequeueRound_failed (h : q.dequeueRound nodes = .failed p) :
    p = .emptyChain ∧ q.head = none := by
  unfold dequeueRound at h
  split at h
  · rename_i hhead
    exact ⟨(DequeueRound.failed.inj h).symm, hhead⟩
  · split at h
    · cases h
    · split at h
      · split at h
        · cases h
        · cases h
        · split at h <;> cases h
      · split at h
        · cases h
        · split at h <;> cases h

end Queue

namespace World

/-- What must be wrong for the panic to be raised by the thread `t`, where `hs` are the hazard
pointers that the operation has in its hands. -/
def Provokes (w : World V) (t : ThreadId) (hs : List Hazard) : Panic → Prop
  | .inactiveRelease => ∃ h ∈ w.hazards.values ++ hs,
      w.domain.registry.isActive h.record = false
  | .emptyChain => ∃ name q, w.queues.get? name = some q ∧ (q.head = none ∨ q.tail = none)
  | .capacityOverflow => (w.site t).presence = .absent ∧ w.domain.abandoned.bags = []
  | .nullRetired | .emptyBag | .weakOrder _ => False
  | .config _ | .explicit _ => True

variable {w w₁ : World V} {t : ThreadId} {hs hs' : List Hazard} {h : Hazard} {p : Panic}

theorem Provokes.mono (hp : w.Provokes t hs p) (hsub : hs ⊆ hs') : w.Provokes t hs' p := by
  cases p with
  | inactiveRelease =>
    obtain ⟨h, hh, hidle⟩ := hp
    refine ⟨h, ?_, hidle⟩
    exact (List.mem_append.1 hh).elim (List.mem_append_left _)
      fun hh => List.mem_append_right _ (hsub hh)
  | _ => exact hp

theorem provokes_of_overflows {s : Site} (hoverflows : s.Overflows p)
    (hpresence : s.presence = (w.site t).presence)
    (habandoned : s.domain.abandoned = w.domain.abandoned) : w.Provokes t hs p := by
  obtain ⟨rfl, habsent, hbags⟩ := hoverflows
  exact ⟨hpresence ▸ habsent, habandoned ▸ hbags⟩

theorem provokes_of_fails (hfails : w₁.FailsToDrop t h p)
    (hh : ∃ x ∈ w.hazards.values ++ hs, x.record = h.record)
    (hactive : w.domain.registry.isActive h.record = true →
      w₁.domain.registry.isActive h.record = true)
    (hthreads : w₁.threads = w.threads)
    (habandoned : w₁.domain.abandoned = w.domain.abandoned) : w.Provokes t hs p := by
  rcases hfails with ⟨rfl, hidle⟩ | hoverflows
  · obtain ⟨x, hx, hrecord⟩ := hh
    refine ⟨x, hx, Bool.eq_false_iff.2 fun hx => ?_⟩
    rw [hrecord] at hx
    rw [hactive hx] at hidle
    cases hidle
  · refine provokes_of_overflows hoverflows ?_ habandoned
    rw [site, site, thread, thread, hthreads]

end World

section transitions
variable {t : ThreadId} {w w' : World V} {fs : List (Frame V)} {p : Panic}

/-- Abandoning a bag by hand is the one operation that can be told to fail a check. -/
theorem Performs.provokes {op : Op V} (h : Performs t w op w' fs (.unwind p))
    (hop : ∀ capacity names, op ≠ .abandon capacity names) (hs : List Hazard) :
    w.Provokes t hs p := by
  cases h with
  | panics p hp => cases p <;> first | exact trivial | cases hp
  | overflows p _ henter => exact World.provokes_of_overflows (Site.enter_error henter) rfl rfl
  | retireOverflows a w₁ p hmark henter =>
    obtain ⟨e, -, -, -, rfl⟩ := World.markRetired_spec hmark
    exact World.provokes_of_overflows (Site.enter_error henter) rfl rfl
  | abandonFails => exact absurd rfl (hop _ _)
  | dropFails hazard h p w₁ hh hdrop =>
    refine World.provokes_of_fails (World.dropHazard_error hdrop) ⟨h, ?_, rfl⟩ id rfl rfl
    exact List.mem_append_left _ (Table.mem_values.2 ⟨hazard, hh⟩)

theorem Enqueues.provokes {e : EnqueueFrame V} (h : Enqueues t w e w' fs (.unwind p)) :
    w.Provokes t (Frame.enqueue e).hazard?.toList p := by
  cases h with
  | overflows p _ henter => exact World.provokes_of_overflows (Site.enter_error henter) rfl rfl
  | fails h a q p _ hq hround =>
    obtain ⟨rfl, htail⟩ := Queue.enqueueRound_failed hround
    exact ⟨e.queue, q, hq, .inr htail⟩
  | breaks h a q q' nodes p w₁ hstage _ _ hdrop =>
    obtain ⟨name, stage, current, rest, reply⟩ := e
    obtain rfl : stage = .link h a := hstage
    exact World.provokes_of_fails (World.dropHazard_error hdrop)
      ⟨h, List.mem_append_right _ (List.mem_singleton_self h), rfl⟩
      (fun hactive => Registry.isActive_protect hactive _) rfl rfl
  | links h a q q' nodes w₁ _ _ _ _ _ _ hsupplies => cases hsupplies

theorem Decides.provokes {d : DequeueFrame V} {call : CallId} {h : Hazard} {q : Queue}
    {found : Option (Payload V)} (hd : Decides w d.queue call d.stage h w' q found)
    (hfails : w'.FailsToDrop t h p) : w.Provokes t (Frame.dequeue d).hazard?.toList p := by
  obtain ⟨name, stage, goal⟩ := d
  dsimp only at hd
  cases hd with
  | front =>
    exact World.provokes_of_fails hfails
      ⟨_, List.mem_append_right _ (List.mem_singleton_self _), rfl⟩
      (fun hactive => Registry.isActive_protect hactive _) rfl rfl
  | empty =>
    exact World.provokes_of_fails hfails
      ⟨_, List.mem_append_right _ (List.mem_singleton_self _), rfl⟩
      (fun hactive => Registry.isActive_protect hactive _) rfl rfl
  | detached =>
    exact World.provokes_of_fails hfails
      ⟨_, List.mem_append_right _ (List.mem_singleton_self _), rfl⟩ id rfl rfl

theorem Gives.not_panics {queue : Name} {q : Queue} {goal : Goal V} {v : Option V} {c : Control V}
    (h : Gives queue q w goal v w' fs c) : c ≠ .unwind p := by
  rintro rfl
  cases h with
  | wait epoch c hc => rcases hc with hc | hc <;> cases hc

theorem Dequeues.provokes {d : DequeueFrame V} (h : Dequeues t w d w' fs (.unwind p)) :
    w.Provokes t (Frame.dequeue d).hazard?.toList p := by
  cases h with
  | overflows p _ _ henter => exact World.provokes_of_overflows (Site.enter_error henter) rfl rfl
  | fails call h q p _ hq hround =>
    obtain ⟨rfl, hhead⟩ := Queue.dequeueRound_failed hround
    exact ⟨d.queue, q, hq, .inl hhead⟩
  | unlinkOverflows call h q q' a p _ _ _ henter =>
    rw [World.noteUnlinked_eq] at henter
    exact World.provokes_of_overflows (Site.enter_error henter) rfl rfl
  | breaks call h q found w₁ _ p hdecides hdrop =>
    exact hdecides.provokes (World.dropHazard_error hdrop)
  | ends call h q found w₁ w₂ _ _ _ _ _ hgives =>
    exact absurd rfl hgives.not_panics

theorem Proceeds.provokes {f : Frame V} (h : Proceeds t w f w' fs (.unwind p)) :
    w.Provokes t f.hazard?.toList p := by
  cases h with
  | reclaims h => cases h
  | enqueues h => exact h.provokes
  | dequeues h => exact h.provokes

/-- A panic on its way through a frame goes on as the panic that it is. -/
theorem Transition.provokes {cue : Cue V} (h : Transition t w cue w' fs (.unwind p))
    (hop : ∀ capacity names, cue ≠ .perform (.abandon capacity names)) :
    cue.control = .unwind p ∨ w.Provokes t (cue.frames.filterMap Frame.hazard?) p := by
  cases h with
  | @performs op _ _ _ h =>
    exact .inr (h.provokes (fun capacity names he => hop capacity names (he ▸ rfl)) _)
  | @proceeds f _ _ _ h =>
    refine .inr (h.provokes.mono fun x hx => ?_)
    exact List.mem_filterMap.2 ⟨f, List.mem_singleton_self f, Option.mem_toList.1 hx⟩
  | releases | passesThrough => exact .inl rfl

end transitions

namespace Run

theorem step_raises {m : Run V} {p : Panic}
    (hop : ∀ capacity names, m.control ≠ .perform (.abandon capacity names))
    (hp : m.step.control = .unwind p) :
    m.control = .unwind p ∨
      m.world.Provokes m.thread (m.stack.filterMap Frame.hazard?) p := by
  rcases m.step_cases with hsame | ⟨cue, rest, hcontrol, hstack, -, fs, -, htransition⟩
  · exact .inl (hsame ▸ hp)
  · rw [hp] at htransition
    rw [hcontrol, hstack, List.filterMap_append]
    refine (htransition.provokes fun capacity names hcue => hop capacity names ?_).imp id
      (·.mono (List.subset_append_left ..))
    rw [hcontrol, hcue]
    rfl

end Run
end Reclaim
