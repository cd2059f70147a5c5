import Reclaim.Proofs.Conservation
import Reclaim.Proofs.StoredCells

set_option autoImplicit false

namespace Reclaim
variable {V : Type}

def Control.isDangling : Control V → Bool
  | .dangling _ => true
  | .perform _ | .resume | .answer _ | .unwind _ | .parked => false

theorem Control.ne_dangling {c : Control V} (h : c.isDangling = false) (a : Address) :
    c ≠ .dangling a := by
  rintro rfl
  cases h

namespace World
variable {w w' : World V} {t : ThreadId} {h : Hazard}

theorem retirements_dropHazard {r : Option Panic} (e : w.dropHazard t h = (r, w')) :
    w'.retirements = w.retirements := by
  cases dropHazard_drops e <;> rfl

theorem retirements_createHazard (e : w.createHazard t = .ok (h, w')) :
    w'.retirements = w.retirements := by
  obtain ⟨i, s, -, -, rfl⟩ := createHazard_eq e
  rfl

theorem isRecord_of_markAllRetired {names : List (Option Name)}
    {as : List Address} (h : w.markAllRetired names = (.ok as, w')) : ∀ a ∈ as, w.IsRecord a := by
  induction names generalizing w w' as with
  | nil =>
    obtain ⟨rfl, -⟩ := by simpa [markAllRetired] using h
    exact fun a ha => absurd ha List.not_mem_nil
  | cons n rest ih =>
    cases n with
    | none => simp [markAllRetired] at h
    | some n =>
      unfold markAllRetired at h
      split at h
      · simp at h
      · rename_i b w₁ hmark
        split at h
        · simp at h
        · rename_i as' w₂ hall
          obtain ⟨rfl, -⟩ := by simpa using h
          intro a ha
          rcases List.mem_cons.1 ha with rfl | ha
          · exact isRecord_of_marked hmark
          · exact (isRecord_markRetired hmark).1 (ih hall a ha)

/-- What a step that answers to `c₀` retires: nothing, or the records of a bag that is abandoned by
hand, or one record at the site of the thread. This is a record with a name, or a node that was at
the head of its queue; what the retirement hands back is about to be reclaimed. -/
inductive Retires (w : World V) (t : ThreadId) (c₀ : Control V) (w' : World V)
    (fs : List (Frame V)) (c : Control V) : Prop where
  | nothing : w'.retirements = w.retirements → Retires w t c₀ w' fs c
  | several (n : Nat) (names : List (Option Name)) : c₀ = .perform (.abandon n names) →
      (∀ r ∈ w'.retirements, r ∈ w.retirements ∨ w.IsRecord r.address) → Retires w t c₀ w' fs c
  | one (w₁ : World V) (r : Retired) (rs : List Retired) (s : Site) (below : List (Frame V)) :
      w₁.threads = w.threads → w₁.retirements = w.retirements →
      (w.IsRecord r.address ∨
        ∃ name q, w.queues.get? name = some q ∧ q.head = some r.address) →
      (w₁.site t).retire r = .ok (rs, s) → w' = (w₁.setSite t s).emit (.retired r) →
      fs = .reclaim rs :: below → c = .resume → Retires w t c₀ w' fs c

end World

section transitions
variable {t : ThreadId} {w w' : World V} {fs : List (Frame V)} {c : Control V}

theorem Performs.retiring {op : Op V} (h : Performs t w op w' fs c) :
    w.Retires t (.perform op) w' fs c := by
  cases h with
  | answers | panics | strays | overflows | installs | counts | flushes | creates | stores
  | publishes | createsQueue | startsEnqueue | startsDequeue | startsWaiting => exact .nothing rfl
  | retireOverflows a w₁ p hmark =>
    obtain ⟨e, -, -, -, rfl⟩ := World.markRetired_spec hmark
    exact .nothing rfl
  | retires a w₁ rs s hmark hs =>
    obtain ⟨e, he, -, rfl, hw⟩ := World.markRetired_spec hmark
    have hsame : w₁.threads = w.threads ∧ w₁.retirements = w.retirements := by
      subst hw
      exact ⟨rfl, rfl⟩
    exact .one w₁ _ rs s _ hsame.1 hsame.2 (.inl ⟨_, e, he, rfl⟩) hs rfl rfl rfl
  | abandonRefused r w₁ hmark =>
    obtain ⟨records, rfl⟩ := World.records_markAllRetired hmark
    exact .nothing rfl
  | abandonFails as w₁ p hmark =>
    obtain ⟨records, rfl⟩ := World.records_markAllRetired hmark
    exact .nothing rfl
  | abandons as w₁ b hmark hrecords =>
    refine .several _ _ rfl fun r hr => ?_
    rw [World.foldl_emit, hrecords] at hr
    obtain ⟨e, he, her⟩ := List.mem_filterMap.1 hr
    rcases List.mem_append.1 he with he | he
    · obtain ⟨x, hx, rfl⟩ := List.mem_map.1 (List.mem_reverse.1 he)
      obtain rfl := Option.some.inj her
      obtain ⟨a, ha, rfl⟩ := List.mem_map.1 hx
      exact .inr (World.isRecord_of_markAllRetired hmark a ha)
    · obtain ⟨records, rfl⟩ := World.records_markAllRetired hmark
      exact .inl (List.mem_filterMap.2 ⟨e, he, her⟩)
  | holds h h' w₁ w₂ _ hcreate hpublish =>
    have hsame := World.retirements_createHazard hcreate
    rcases hpublish with hnot | ⟨a, hpublish⟩
    · obtain ⟨rfl, rfl⟩ := Prod.mk.inj hnot
      exact .nothing hsame
    · obtain ⟨rfl, rfl⟩ := Prod.mk.inj hpublish
      exact .nothing hsame
  | tries h w₁ w₂ a hcreate hdrop =>
    exact .nothing ((World.retirements_dropHazard hdrop).trans
      (World.retirements_createHazard hcreate))
  | drops hazard h w₁ _ hdrop | dropFails hazard h p w₁ _ hdrop =>
    have hsame := World.retirements_dropHazard hdrop
    exact .nothing hsame

theorem Empties.retirements {s : Slot (Payload V)} (h : Empties w s w' fs) :
    w'.retirements = w.retirements := by
  cases h <;> rfl

theorem Reclaims.retirements {rs : List Retired} (h : Reclaims w rs w' fs c) :
    w'.retirements = w.retirements := by
  cases h with
  | finished | strays => rfl
  | object r rest o w₁ _ htells => cases htells <;> rfl
  | node r rest n w₁ fs _ _ hempties => exact hempties.retirements

theorem Enqueues.retirements {e : EnqueueFrame V} (h : Enqueues t w e w' fs c) :
    w'.retirements = w.retirements := by
  cases h with
  | overflows | lost | strays | fails | helps => rfl
  | allocates h w₁ _ hcreate =>
    have hsame := World.retirements_createHazard hcreate
    exact hsame
  | breaks h a q q' nodes p w₁ _ _ _ hdrop =>
    have hsame := World.retirements_dropHazard hdrop
    exact hsame
  | links h a q q' nodes w₁ _ _ _ _ _ hdrop =>
    have hsame := World.retirements_dropHazard hdrop
    exact hsame

theorem Decides.retirements {name : Name} {call : CallId} {stage : DequeueStage} {h : Hazard}
    {q : Queue} {found : Option (Payload V)} (hd : Decides w name call stage h w' q found) :
    w'.retirements = w.retirements := by
  cases hd <;> rfl

theorem Gives.retirements {queue : Name} {q : Queue} {goal : Goal V} {v : Option V}
    (h : Gives queue q w goal v w' fs c) : w'.retirements = w.retirements := by
  cases h <;> rfl

/-- The node that an attempt takes out of the queue is the only one that is retired here. -/
theorem Dequeues.retiring {d : DequeueFrame V} {c₀ : Control V} (h : Dequeues t w d w' fs c) :
    w.Retires t c₀ w' fs c := by
  cases h with
  | lost | overflows | strays | fails | helps | again | claimStrays | claimRefused =>
    exact .nothing rfl
  | begins h w₁ _ _ hcreate =>
    have hsame := World.retirements_createHazard hcreate
    exact .nothing hsame
  | unlinkOverflows call h q q' a p =>
    have hsame := World.retirements_noteUnlinked
      ((w.publish h q.head).2.setQueue d.queue q') q.id call a
    exact .nothing hsame
  | unlinks call h q q' a rs s _ hq hround hs =>
    obtain ⟨n, next, hhead, -, -, -, -⟩ := Queue.dequeueRound_unlinked hround
    have hsame := World.retirements_noteUnlinked
      ((w.publish h q.head).2.setQueue d.queue q') q.id call a
    have hthreads : (((w.publish h q.head).2.setQueue d.queue q').noteUnlinked
        q.id call a).threads = w.threads := by
      rw [World.noteUnlinked_eq]
      rfl
    exact .one _ ⟨a, .boxed⟩ rs s _ hthreads hsame (.inr ⟨d.queue, q, hq, hhead⟩) hs rfl rfl rfl
  | breaks call h q found w₁ _ p hdecides hdrop =>
    exact .nothing ((World.retirements_dropHazard hdrop).trans hdecides.retirements)
  | ends call h q found w₁ w₂ _ _ _ hdecides hdrop hgives =>
    exact .nothing (hgives.retirements.trans
      ((World.retirements_dropHazard hdrop).trans hdecides.retirements))

theorem Proceeds.retiring {f : Frame V} {c₀ : Control V} (h : Proceeds t w f w' fs c) :
    w.Retires t c₀ w' fs c := by
  cases h with
  | scriptOver | acts | acted | answers | chainOver | chainStrays | stays | leaves | keepsNothing
  | abandons | exits => exact .nothing rfl
  | reclaims h => exact .nothing h.retirements
  | enqueues h => exact .nothing h.retirements
  | dequeues h => exact h.retiring
  | frees i a n w₁ fs _ hempties => exact .nothing hempties.retirements

theorem Transition.retiring {cue : Cue V} (h : Transition t w cue w' fs c) :
    w.Retires t cue.control w' fs c := by
  cases h with
  | performs h => exact h.retiring
  | proceeds h => exact h.retiring
  | acted | passesOn | catches | passesThrough => exact .nothing rfl
  | releases p f h => exact .nothing (World.retirements_dropHazard rfl)

/-! An access that fails would be one to something that is held. -/

theorem Performs.present {op : Op V} {hs : List (Holding V)} (h : Performs t w op w' fs c)
    (hsound : w.Sound hs) : c.isDangling = false := by
  cases h with
  | strays a hq hnone =>
    -- The chain of the queue is whole, so whoever reads it comes to its end.
    obtain ⟨l, t, -, hpath⟩ := World.path_of_census hsound.census hq
    rw [hpath.values_eq] at hnone
    cases hnone
  | _ => rfl

theorem Reclaims.present {rs : List Retired} {hs : List (Holding V)} (h : Reclaims w rs w' fs c)
    (hsound : w.Sound (rs.map .doomed ++ hs)) : c.isDangling = false := by
  cases h with
  | strays r rest ho hn => exact absurd ⟨ho, hn⟩ (hsound.not_lacks (.doomed r) (by simp))
  | finished | object | node => rfl

theorem Supplies.present {queue : Name} {rest : Supply V} {reply : Answer V}
    (h : Supplies queue rest reply fs c) : c.isDangling = false := by
  cases h <;> rfl

theorem Enqueues.present {e : EnqueueFrame V} {hs : List (Holding V)}
    (h : Enqueues t w e w' fs c) (hsound : w.Sound ((Frame.enqueue e).holdings ++ hs)) :
    c.isDangling = false := by
  have hthere := hsound.not_lacks (.visit e.queue)
    (List.mem_append_left _ (Frame.visit_mem_enqueue e))
  cases h with
  | lost a hnone => exact absurd (World.lacks_visit_of_none hnone) hthere
  | strays h a b q _ hq hround =>
    obtain ⟨ht, hb⟩ := Queue.enqueueRound_dangling hround
    exact absurd (World.lacks_visit hq (.inr ht) hb) hthere
  | links h a q q' nodes w₁ _ _ _ _ _ _ hsupplies => exact hsupplies.present
  | overflows | allocates | fails | helps | breaks => rfl

theorem Gives.present {queue : Name} {q : Queue} {goal : Goal V} {v : Option V}
    (h : Gives queue q w goal v w' fs c) : c.isDangling = false := by
  cases h with
  | wait epoch c hc => rcases hc with rfl | rfl <;> rfl
  | once | last | more | value => rfl

theorem Dequeues.present {d : DequeueFrame V} {hs : List (Holding V)}
    (h : Dequeues t w d w' fs c) (hsound : w.Sound ((Frame.dequeue d).holdings ++ hs)) :
    c.isDangling = false := by
  have hthere := hsound.not_lacks (.visit d.queue)
    (List.mem_append_left _ (Frame.visit_mem_dequeue d))
  cases h with
  | lost a hnone => exact absurd (World.lacks_visit_of_none hnone) hthere
  | strays call h a q _ hq hround =>
    obtain ⟨ha, hnone⟩ := Queue.dequeueRound_dangling hround
    exact absurd (World.lacks_visit hq (.inl ha) hnone) hthere
  | claimStrays call h a b q hstage hq hclaim =>
    obtain ⟨name, stage, goal⟩ := d
    obtain rfl : stage = .unlinked call h a := hstage
    have hheld := hsound.not_lacks (.detached name call h a) (by simp [Frame.holdings])
    exact absurd (Queue.claim_dangling hclaim) hheld
  | ends call h q found w₁ w₂ _ _ _ _ _ hgives => exact hgives.present
  | overflows | begins | fails | helps | again | unlinkOverflows | unlinks | claimRefused
  | breaks => rfl

theorem Transition.present {cue : Cue V} {hs : List (Holding V)} (h : Transition t w cue w' fs c)
    (hsound : w.Sound (cue.frames.flatMap Frame.holdings ++ hs)) : c.isDangling = false := by
  cases h with
  | performs h => exact h.present hsound
  | @proceeds f _ _ _ h =>
    rw [Cue.frames, List.flatMap_singleton] at hsound
    cases h with
    | reclaims h => exact h.present hsound
    | enqueues h => exact h.present hsound
    | dequeues h => exact h.present hsound
    | chainStrays i a hnone =>
      exact absurd hnone (hsound.not_lacks (.cut i (some a)) (List.mem_cons_self ..))
    | scriptOver | acts | acted | answers | chainOver | frees | stays | leaves | keepsNothing
    | abandons | exits => rfl
  | acted | passesOn | catches | releases | passesThrough => rfl

end transitions

namespace Run

theorem step_present {m : Run V} (hsound : m.world.Sound m.holdings)
    (hpresent : m.control.isDangling = false) : m.step.control.isDangling = false := by
  rcases m.step_cases with hsame | ⟨cue, rest, -, hstack, -, fs, -, htransition⟩
  · rwa [hsame]
  · rw [holdings, hstack, List.flatMap_append] at hsound
    exact htransition.present hsound

theorem step_retires (m : Run V) : ∃ fs rest, m.step.stack = fs ++ rest ∧
    m.world.Retires m.thread m.control m.step.world fs m.step.control := by
  rcases m.step_cases with hsame | ⟨cue, rest, hcontrol, -, -, fs, hstep, htransition⟩
  · exact ⟨[], m.stack, by rw [hsame]; rfl, .nothing (by rw [hsame])⟩
  · exact ⟨fs, rest, hstep, hcontrol ▸ htransition.retiring⟩

/-- What is retired is a record, or a node that was at the head of its queue. -/
theorem step_retirements {m : Run V} : ∀ r ∈ m.step.world.retirements,
    r ∈ m.world.retirements ∨ m.world.IsRecord r.address ∨
      ∃ name q, m.world.queues.get? name = some q ∧ q.head = some r.address := by
  intro r hr
  obtain ⟨fs, rest, -, hretires⟩ := m.step_retires
  cases hretires with
  | nothing hsame => exact .inl (hsame ▸ hr)
  | several n names _ hrecords => exact (hrecords r hr).imp id .inl
  | one w₁ x rs s below _ hsame hwhat _ hstep =>
    rw [hstep] at hr
    rcases List.mem_cons.1 hr with rfl | hr
    · exact .inr hwhat
    · exact .inl (hsame ▸ hr)

end Run
end Reclaim
