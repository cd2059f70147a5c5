import Reclaim.Proofs.HazardOwners

set_option autoImplicit false

namespace Reclaim
variable {V : Type}

def Event.retired? : Event V → Option Retired
  | .retired r => some r
  | _ => none

def Event.reclaimed? : Event V → Option Retired
  | .reclaimed r => some r
  | _ => none

def Holding.kept? : Holding V → Option Retired
  | .doomed r | .unbagged r => some r
  | _ => none

namespace World

def retirements (w : World V) : List Retired := w.history.filterMap Event.retired?

def reclamations (w : World V) : List Retired := w.history.filterMap Event.reclaimed?

def bagged (w : World V) : List Retired := w.threads.values.flatMap (·.presence.records)

/-- Where the records are that were retired. -/
def account (w : World V) (hs : List (Holding V)) : List Retired :=
  w.reclamations ++ (w.bagged ++ (w.domain.abandoned.records ++ hs.filterMap Holding.kept?))

theorem thread_insert (w : World V) (t : ThreadId) (th : Thread V) (t' : ThreadId) :
    World.thread { w with threads := w.threads.insert t th } t' =
      if t' = t then th else w.thread t' := by
  rw [thread]
  dsimp only
  rw [Table.get?_insert]
  split <;> rfl

theorem thread_setSite (w : World V) (t : ThreadId) (s : Site) (t' : ThreadId) :
    (w.setSite t s).thread t' =
      if t' = t then { w.thread t with presence := s.presence } else w.thread t' :=
  w.thread_insert t _ t'

theorem presence_setSite (w : World V) (t : ThreadId) (s : Site) :
    ((w.setSite t s).thread t).presence = s.presence := by
  rw [thread_setSite, if_pos rfl]

theorem thread_setPhase (w : World V) (t : ThreadId) (phase : Phase) (t' : ThreadId) :
    (w.setPhase t phase).thread t' =
      if t' = t then { w.thread t with phase } else w.thread t' :=
  w.thread_insert t _ t'

theorem presence_setPhase (w : World V) (t : ThreadId) (phase : Phase) (t' : ThreadId) :
    ((w.setPhase t phase).thread t').presence = (w.thread t').presence := by
  rw [thread_setPhase]
  split
  · rename_i ht
    rw [ht]
  · rfl

theorem thread_addExitActs (w : World V) (t : ThreadId) (acts : List (Act V)) (t' : ThreadId) :
    (w.addExitActs t acts).thread t' =
      if t' = t then { w.thread t with exitActs := (w.thread t).exitActs ++ acts }
      else w.thread t' :=
  w.thread_insert t _ t'

/-- What a thread gains is what is put in its place. -/
theorem bagged_insert (w : World V) (t : ThreadId) (th : Thread V) :
    ((w.threads.insert t th).values.flatMap (·.presence.records) ++
      (w.thread t).presence.records).Perm (w.bagged ++ th.presence.records) := by
  have h := Table.flatMap_values_insert w.threads t th (·.presence.records)
  have hold : (w.threads.get? t).elim [] (·.presence.records) =
      (w.thread t).presence.records := by
    unfold thread
    cases w.threads.get? t <;> rfl
  rwa [hold] at h

/-- What an operation at a thread takes in or hands out, its site loses or gains. -/
theorem count_setSite (w : World V) (t : ThreadId) (s : Site) (r : Retired) :
    (w.setSite t s).bagged.count r + s.domain.abandoned.records.count r +
        (w.site t).records.count r =
      w.bagged.count r + w.domain.abandoned.records.count r + s.records.count r := by
  have h := (w.bagged_insert t { w.thread t with presence := s.presence }).count_eq r
  change ((w.setSite t s).bagged ++ (w.thread t).presence.records).count r =
    (w.bagged ++ s.presence.records).count r at h
  simp only [Site.records, site, List.count_append] at h ⊢
  omega

theorem count_account (w : World V) (hs : List (Holding V)) (r : Retired) :
    (w.account hs).count r = w.reclamations.count r + w.bagged.count r +
      w.domain.abandoned.records.count r + (hs.filterMap Holding.kept?).count r := by
  simp only [account, List.count_append]
  omega

theorem count_account_setSite (w : World V) (t : ThreadId) (s : Site) (hs : List (Holding V))
    (r : Retired) :
    ((w.setSite t s).account hs).count r + (w.site t).records.count r =
      (w.account hs).count r + s.records.count r := by
  have h := w.count_setSite t s r
  rw [count_account, count_account]
  change w.reclamations.count r + _ + s.domain.abandoned.records.count r + _ + _ = _
  omega

theorem account_reclaimed (w : World V) (hs : List (Holding V)) (r : Retired) :
    ((w.emit (.reclaimed r)).account hs).Perm (w.account (.doomed r :: hs)) := by
  apply List.perm_iff_count.2
  intro x
  have hnew : (w.emit (.reclaimed r)).reclamations = r :: w.reclamations := rfl
  have hold : ((Holding.doomed r :: hs).filterMap Holding.kept?) =
      r :: hs.filterMap Holding.kept? := rfl
  rw [count_account, count_account, hnew, hold, List.count_cons, List.count_cons]
  change _ + w.bagged.count x + w.domain.abandoned.records.count x + _ = _
  omega

theorem retirements_note {w : World V} {e : Event V} (h : e.isVisible = true) :
    (w.emit e).retirements = w.retirements := by
  cases e <;> first | rfl | simp [Event.isVisible] at h

theorem reclamations_note {w : World V} {e : Event V} (h : e.isVisible = true) :
    (w.emit e).reclamations = w.reclamations := by
  cases e <;> first | rfl | simp [Event.isVisible] at h

theorem retirements_noteUnlinked (w : World V) (i : QueueId) (c : CallId) (a : Address) :
    (w.noteUnlinked i c a).retirements = w.retirements := by
  unfold noteUnlinked
  split <;> rfl

theorem reclamations_noteUnlinked (w : World V) (i : QueueId) (c : CallId) (a : Address) :
    (w.noteUnlinked i c a).reclamations = w.reclamations := by
  unfold noteUnlinked
  split <;> rfl

theorem account_noteUnlinked (w : World V) (i : QueueId) (c : CallId) (a : Address)
    (hs : List (Holding V)) : (w.noteUnlinked i c a).account hs = w.account hs := by
  unfold noteUnlinked
  split <;> rfl

end World

namespace Effect
variable {lossy : Prop} {g : Registry} {w w' : World V} {hs hs' : List (Holding V)}

theorem filterMap_kept_map (f : Retired → Holding V) (hf : ∀ r, (f r).kept? = some r)
    (rs : List Retired) : (rs.map f).filterMap Holding.kept? = rs := by
  simp [List.filterMap_map, hf]

/-- An effect adds what was newly retired to the account, and takes away what was lost. -/
theorem balance (e : Effect lossy g w hs w' hs') :
    ∃ new lost, w'.retirements = new ++ w.retirements ∧
      (∀ r ∈ new, Holding.condemned r ∈ hs) ∧
      (w'.account hs' ++ lost).Perm (new ++ w.account hs) ∧
      (¬ lossy → (∀ k ∈ hs, ¬ w.Lacks k) → lost = []) := by
  have hkeep {w' : World V} {hs' : List (Holding V)} (hr : w'.retirements = w.retirements)
      (hp : (w'.account hs').Perm (w.account hs)) :
      ∃ new lost, w'.retirements = new ++ w.retirements ∧
        (∀ r ∈ new, Holding.condemned r ∈ hs) ∧
        (w'.account hs' ++ lost).Perm (new ++ w.account hs) ∧
        (¬ lossy → (∀ k ∈ hs, ¬ w.Lacks k) → lost = []) :=
    ⟨[], [], hr, by simp, by simpa using hp, fun _ _ => rfl⟩
  -- What goes without a deletion goes in a panic or after a failed access.
  have hdrop {hs' : List (Holding V)} (hsub : hs'.Sublist hs)
      (hl : lossy ∨ ∃ k ∈ hs, w.Lacks k) :
      ∃ new lost, w.retirements = new ++ w.retirements ∧
        (∀ r ∈ new, Holding.condemned r ∈ hs) ∧
        (w.account hs' ++ lost).Perm (new ++ w.account hs) ∧
        (¬ lossy → (∀ k ∈ hs, ¬ w.Lacks k) → lost = []) := by
    obtain ⟨lost, hlost⟩ := (hsub.filterMap Holding.kept?).exists_perm_append
    refine ⟨[], lost, rfl, by simp, ?_, ?_⟩
    · apply List.perm_iff_count.2
      intro r
      have := hlost.count_eq r
      simp only [List.count_append, List.nil_append, World.count_account] at this ⊢
      omega
    · intro hn hk
      rcases hl with hl | ⟨k, hmem, hlacks⟩
      · exact absurd hl hn
      · exact absurd hlacks (hk k hmem)
  cases e with
  | reorder hp =>
    exact hkeep rfl ((((hp.filterMap _).symm.append_left _).append_left _).append_left _)
  | lose hl => exact hdrop (List.sublist_cons_self _ _) (.inl hl)
  | fault hk hlacks hsub => exact hdrop hsub (.inr ⟨_, hk, hlacks⟩)
  | setThread t th hp =>
    have h := w.bagged_insert t th
    rw [hp, List.perm_append_right_iff] at h
    exact hkeep rfl ((h.append_right _).append_left _)
  | note e he =>
    apply hkeep (World.retirements_note he)
    rw [World.account, World.reclamations_note he]
    exact .refl _
  | declare =>
    rename_i r hs
    refine ⟨[r], [], rfl, by simp, ?_, fun _ _ => rfl⟩
    rw [List.append_nil]
    apply List.perm_iff_count.2
    intro x
    have hnew : ((Holding.unbagged r :: hs).filterMap Holding.kept?) =
        r :: hs.filterMap Holding.kept? := rfl
    have hold : ((Holding.condemned r :: hs).filterMap Holding.kept?) =
        hs.filterMap Holding.kept? := rfl
    rw [World.count_account, List.count_append, World.count_account, hnew, hold,
      List.count_cons, List.count_singleton]
    change w.reclamations.count x + w.bagged.count x + w.domain.abandoned.records.count x + _ = _
    omega
  | settle t s hreg hrec =>
    refine hkeep rfl (List.perm_iff_count.2 fun r => ?_)
    have := w.count_account_setSite t s hs r
    have := hrec.count_eq r
    omega
  | scan rs ds ls t s hreg hg hperm hfree =>
    rename_i hs
    refine hkeep rfl (List.perm_iff_count.2 fun r => ?_)
    have h₁ := w.count_account_setSite t s (ds.map .doomed ++ (ls.map .unbagged ++ hs)) r
    have h₂ := hperm.count_eq r
    simp only [World.count_account, List.filterMap_append, List.count_append,
      filterMap_kept_map Holding.doomed fun _ => rfl,
      filterMap_kept_map Holding.unbagged fun _ => rfl] at h₁ h₂ ⊢
    omega
  | abandon b =>
    refine hkeep rfl (List.perm_iff_count.2 fun r => ?_)
    have hb : (w.abandoning b).domain.abandoned.records.count r =
        b.records.count r + w.domain.abandoned.records.count r := List.count_append
    simp only [World.count_account, List.filterMap_append, List.count_append,
      filterMap_kept_map Holding.unbagged fun _ => rfl, hb]
    change w.reclamations.count r + w.bagged.count r + _ + _ = _
    omega
  | acquire t i s hacquired hrec =>
    refine hkeep rfl (List.perm_iff_count.2 fun r => ?_)
    have := w.count_account_setSite t s hs r
    have := hrec.count_eq r
    change ((w.setSite t s).account hs).count r = _
    omega
  | unlink name q q' a =>
    rename_i h c hs
    exact hkeep (World.retirements_noteUnlinked ..) (.of_eq (World.account_noteUnlinked ..))
  | destroyObject o ho => exact hkeep rfl (World.account_reclaimed _ _ _)
  | destroyNode n ho hn => exact hkeep rfl (World.account_reclaimed _ _ _)
  | configure | storeCells | createRecord | createQueue | condemn | spare | publish | republish
  | giveName | takeName | release | enter | depart | allocate | link | count | setWaiter | help
  | begin | claimFront | findEmpty | claimDetached | missDetached | giveUp | finish | free | freed
  | vacant | drop | discard => exact hkeep rfl (.refl _)

end Effect

theorem World.account_empty : ({} : World V).account [] = [] := by
  simp [account, reclamations, bagged, Table.values_empty, Abandoned.records_empty]

theorem Effect.account_subperm {lossy : Prop} {g : Registry} {w w' : World V}
    {hs hs' : List (Holding V)} (e : Effect lossy g w hs w' hs')
    (h : (w.account hs).Subperm w.retirements) : (w'.account hs').Subperm w'.retirements := by
  obtain ⟨new, lost, hret, -, hperm, -⟩ := e.balance
  rw [hret]
  have hall : (w'.account hs' ++ lost).Subperm (new ++ w.retirements) :=
    hperm.subperm.trans ((List.subperm_append_left new).2 h)
  exact (List.sublist_append_left _ _).subperm.trans hall

theorem Run.Reachable.account_subperm {m : Run V} (h : m.Reachable) :
    (m.world.account m.holdings).Subperm m.world.retirements := by
  refine @of_effects V (fun w hs => (w.account hs).Subperm w.retirements) ?_ ?_ m h
  · rw [World.account_empty]
    exact List.nil_subperm
  · exact fun _ _ _ _ _ _ e => e.account_subperm

end Reclaim
