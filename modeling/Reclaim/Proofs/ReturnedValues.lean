import Reclaim.Proofs.ConfinedSteps
import Reclaim.Proofs.QueueReceipts

/-!
First in, first out, up to the answers. What a queue has taken in is what was removed from it,
followed by what waits in it; what was removed is returned once, by the attempt that has removed
it; and what an attempt returns is what its caller gets (`Run.Reaches.queues_fifo`).
-/

set_option autoImplicit false

namespace Reclaim
variable {V : Type}

theorem Proceeds.queues {t : ThreadId} {w w' : World V} {f : Frame V} {fs : List (Frame V)}
    {k : Control V} (h : Proceeds t w f w' fs k) (hf : f.isFinal = true) :
    w'.queues = w.queues := by
  cases h with
  | chainOver | chainStrays | stays | leaves | exits => rfl
  | frees i a n w₁ fs _ hempties =>
    obtain ⟨rfl, -⟩ := hempties.adds
    rfl
  | scriptOver | acts | acted | reclaims | answers | enqueues | dequeues | keepsNothing | abandons =>
    cases hf

namespace Run
variable {m : Run V}

/-- The results `found` were returned by attempts on the queue `i`, in this order. -/
def WereReturned (i : QueueId) (found : List (Option V)) (l : List (Event V)) : Prop :=
  ∃ rs : List (CallId × Option V), rs.map (·.2) = found ∧
    (rs.map fun x => Event.returned i x.1 x.2).Sublist l

theorem WereReturned.none (i : QueueId) (l : List (Event V)) : WereReturned i [] l :=
  ⟨[], rfl, List.nil_sublist l⟩

theorem WereReturned.later {i : QueueId} {found : List (Option V)} {l l' : List (Event V)}
    (h : WereReturned i found l) (hl : l <:+ l') : WereReturned i found l' := by
  obtain ⟨rs, hrs, hsub⟩ := h
  exact ⟨rs, hrs, hsub.trans hl.sublist⟩

theorem WereReturned.cons {i : QueueId} {c : CallId} {v : Option V} {found : List (Option V)}
    {l l' : List (Event V)} (h : WereReturned i found l)
    (hl : ∃ new, l' = .returned i c v :: (new ++ l)) :
    WereReturned i (v :: found) l' := by
  obtain ⟨rs, rfl, hsub⟩ := h
  obtain ⟨new, rfl⟩ := hl
  exact ⟨(c, v) :: rs, rfl, (hsub.trans (List.sublist_append_right ..)).cons_cons _⟩

/-- An attempt that has unlinked the second of three values is suspended, and the destructor of a
record that is reclaimed meanwhile has taken the third one out of the same queue. -/
def nested : Run Nat := idle.following
  (tell 0 20 [.install { minRecords := some 4 }, .createQueue "queue" .yield,
    .onQueue "queue" (.enqueueEach 3 fun i => i + 7), .onQueue "queue" .tryDequeue,
    .create "record" [⟨none, .onQueue "queue" .tryDequeue⟩], .retire "record" .boxed] ++
  tell 0 10 [.onQueue "queue" .tryDequeue])

theorem nested_calmly : Reaches IsCalm idle nested :=
  .following (.refl (by decide)) _ (by decide +kernel)

end Run
end Reclaim
