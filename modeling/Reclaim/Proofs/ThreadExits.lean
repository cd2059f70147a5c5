import Reclaim.Proofs.InternalChecks
import Reclaim.Proofs.RecordMoves

/-!
What a thread leaves behind at its end. Its context is destroyed first, after a last flush, so what
destructors retire from then on is abandoned at once; the bag of the context follows when the
records of the flush are reclaimed (`Run.Bequeaths`). In the end nothing is lost and nothing is
there twice (`Run.Reachable.exit_hands_over`).
-/

set_option autoImplicit false

namespace Reclaim
variable {V : Type}

def Domain.protects (d : Domain) (r : Retired) : Bool :=
  d.registry.protectedAddresses.contains r.address

theorem Domain.protects_iff {d : Domain} {r : Retired} :
    d.protects r = true ↔ r.address ∈ d.registry.protectedAddresses :=
  List.contains_iff_mem

/-- The two parts of a list that were told apart by `p`. -/
theorem filter_perm_of_append {α : Type} {p : α → Bool} {l₁ l₂ l : List α}
    (h : (l₁ ++ l₂).Perm l) (h₁ : ∀ x ∈ l₁, p x = false) (h₂ : ∀ x ∈ l₂, p x = true) :
    l₁.Perm (l.filter fun x => !p x) ∧ l₂.Perm (l.filter p) := by
  have hnone : l₁.filter p = [] :=
    List.filter_eq_nil_iff.2 fun x hx => by rw [h₁ x hx]; exact Bool.noConfusion
  have hall : l₁.filter (fun x => !p x) = l₁ :=
    List.filter_eq_self.2 fun x hx => by rw [h₁ x hx]; rfl
  have hnone' : l₂.filter (fun x => !p x) = [] :=
    List.filter_eq_nil_iff.2 fun x hx => by rw [h₂ x hx]; exact Bool.noConfusion
  have hfirst := h.filter fun x => !p x
  have hsecond := h.filter p
  rw [List.filter_append, hall, hnone', List.append_nil] at hfirst
  rw [List.filter_append, hnone, List.filter_eq_self.2 h₂] at hsecond
  exact ⟨hfirst, hsecond⟩

/-- A flush takes out of the bag what is not protected, and leaves there what is. -/
theorem Context.flush_parts (c : Context) (d : Domain) :
    (c.flush d).1.Perm ((c.bag.records ++ d.abandoned.records).filter fun r => !d.protects r) ∧
      (c.flush d).2.1.bag.records.Perm
        ((c.bag.records ++ d.abandoned.records).filter d.protects) := by
  obtain ⟨-, hperm, hfree⟩ := c.flush_spec d
  have hnone : (c.flush d).2.2.abandoned.records = [] := by
    rw [Abandoned.records, c.bags_flush d]
    rfl
  rw [hnone, List.append_nil] at hperm
  exact filter_perm_of_append hperm
    (fun r hr => Bool.eq_false_iff.2 fun hp => hfree r hr (Domain.protects_iff.1 hp))
    fun r hr => Domain.protects_iff.2 (c.flush_kept d r hr)

/-- What the last flush of a context takes out of its bag, and what it leaves there. -/
theorem Site.leave_live {s : Site} {c : Context} (hc : s.presence = .live c) :
    ∃ rs bag s', s.leave = (rs, some bag, s') ∧ s'.presence = .destroyed ∧
      s'.domain.abandoned.bags = [] ∧
      rs.Perm (s.records.filter fun r => !s.domain.protects r) ∧
      bag.records.Perm (s.records.filter s.domain.protects) := by
  have hleave : s.leave = ((c.flush s.domain).1, some (c.flush s.domain).2.1.bag,
      ⟨(c.flush s.domain).2.2, .destroyed⟩) := by
    rw [leave, hc]
    rfl
  have hparts := c.flush_parts s.domain
  rw [← records_of_live hc] at hparts
  exact ⟨_, _, _, hleave, rfl, c.bags_flush s.domain, hparts⟩

theorem Frame.departing_of_not_parting {fs : List (Frame V)} (h : fs.any isParting = false) :
    fs.flatMap departing = [] := by
  refine List.flatMap_eq_nil_iff.2 fun f hf => ?_
  have hplain := List.any_eq_false.1 h f hf
  cases f with
  | abandonRest bag => exact absurd rfl hplain
  | _ => rfl

namespace Run

/-- On the way to `n` the thread, whose context is gone, has retired the records `new`, called the
deleters of the records `done` and given up the records `left` of its bag. -/
structure Bequeaths (m : Run V) (new done left : List Retired) (n : Run V) : Prop where
  thread : n.thread = m.thread
  gone : n.site.presence = .destroyed
  retirements : n.world.retirements = new ++ m.world.retirements
  reclamations : n.world.reclamations = done ++ m.world.reclamations
  remainders : m.remainders.Perm (done ++ n.remainders)
  departing : m.departing.Perm (left ++ n.departing)
  abandoned : n.world.domain.abandoned.records.Perm
    (left ++ (new ++ m.world.domain.abandoned.records))

namespace Bequeaths
variable {m n k : Run V} {new done left new' done' left' : List Retired}

theorem refl (hgone : m.site.presence = .destroyed) : m.Bequeaths [] [] [] m :=
  ⟨rfl, hgone, rfl, rfl, .refl _, .refl _, .refl _⟩

theorem trans (h : m.Bequeaths new done left k) (h' : k.Bequeaths new' done' left' n) :
    m.Bequeaths (new' ++ new) (done' ++ done) (left' ++ left) n where
  thread := h'.thread.trans h.thread
  gone := h'.gone
  retirements := by rw [h'.retirements, h.retirements, List.append_assoc]
  reclamations := by rw [h'.reclamations, h.reclamations, List.append_assoc]
  remainders := by
    refine List.perm_iff_count.2 fun r => ?_
    have hcount := h.remainders.count_eq r
    have hcount' := h'.remainders.count_eq r
    simp only [List.count_append] at hcount hcount' ⊢
    omega
  departing := by
    refine List.perm_iff_count.2 fun r => ?_
    have hcount := h.departing.count_eq r
    have hcount' := h'.departing.count_eq r
    simp only [List.count_append] at hcount hcount' ⊢
    omega
  abandoned := by
    refine List.perm_iff_count.2 fun r => ?_
    have hcount := h.abandoned.count_eq r
    have hcount' := h'.abandoned.count_eq r
    simp only [List.count_append] at hcount hcount' ⊢
    omega

/-- Nothing to reclaim and nothing to give up comes up again. -/
theorem nothing_left (h : m.Bequeaths new done left n) (hrs : m.remainders = [])
    (hdeparting : m.departing = []) : n.remainders = [] ∧ n.departing = [] := by
  have hremainders := h.remainders
  have hdepart := h.departing
  rw [hrs] at hremainders
  rw [hdeparting] at hdepart
  exact ⟨(List.append_eq_nil_iff.1 hremainders.symm.eq_nil).2,
    (List.append_eq_nil_iff.1 hdepart.symm.eq_nil).2⟩

end Bequeaths

section gone
variable {m : Run V}

/-- There is no bag that could take in what is retired. -/
theorem Moves.bequeaths {n : Run V} {new rs : List Retired} {stack : List (Frame V)}
    (h : Moves { m with stack } new rs n) (hgone : m.site.presence = .destroyed)
    (hremainders : m.remainders = stack.flatMap Frame.remainder)
    (hdeparting : m.departing = stack.flatMap Frame.departing) : m.Bequeaths new [] [] n := by
  obtain ⟨fs, hfs, hrs, hplain⟩ := h.stack
  have hdeparting' : n.departing = m.departing := by
    rw [Run.departing, hfs, List.flatMap_append, Frame.departing_of_not_parting hplain, hdeparting]
    rfl
  have hremainders' : n.remainders = rs ++ m.remainders := by
    rw [h.remainders, hremainders]
    rfl
  have hsite : n.site = n.world.site m.thread := congrArg n.world.site h.thread
  cases h.world.site with
  | keep hnew hnone hsame habandoned =>
    subst hnew hnone
    refine ⟨h.thread, ?_, h.world.retirements, h.world.reclamations, .of_eq hremainders'.symm,
      .of_eq hdeparting'.symm, .of_eq (congrArg Abandoned.records habandoned)⟩
    rw [hsite]
    exact hsame.destroyed_iff.2 hgone
  | gather hgathers => exact absurd hgone hgathers.present
  | pass r _ hgone' hnew hnone habandoned =>
    subst hnew hnone
    refine ⟨h.thread, ?_, h.world.retirements, h.world.reclamations, .of_eq hremainders'.symm,
      .of_eq hdeparting'.symm, .of_eq (congrArg Abandoned.records habandoned)⟩
    rw [hsite]
    exact hgone'.trans hgone

theorem abandon_bequeaths (m : Run V) (hgone : m.site.presence = .destroyed) (capacity : Nat)
    (names : List (Option Name)) : ∃ new, m.Bequeaths new [] [] (m.abandon capacity names) := by
  have hmarked {w : World V} {found : Except Refusal (List Address)} (c : Control V)
      (h : m.world.markAllRetired names = (found, w)) :
      m.Bequeaths [] [] [] { m with world := w, control := c } := by
    obtain ⟨records, rfl⟩ := World.records_markAllRetired h
    exact ⟨rfl, hgone, rfl, rfl, .refl _, .refl _, .refl _⟩
  unfold abandon
  split
  · rename_i hmark
    exact ⟨[], hmarked _ hmark⟩
  · rename_i addresses w hmark
    dsimp only
    split
    · exact ⟨[], hmarked _ hmark⟩
    · rename_i bag hbag
      split
      · exact ⟨[], hmarked _ hmark⟩
      · rename_i domain habandon
        obtain ⟨records, rfl⟩ := World.records_markAllRetired hmark
        obtain ⟨rfl, -⟩ := Domain.records_of_abandon habandon
        let rs : List Retired := addresses.map fun address => { address, deleter := .boxed }
        have hrecords : (rs.foldl Bag.push bag).records = rs := by
          rw [Bag.records_foldl_push, Bag.records_of_withCapacity hbag, List.nil_append]
        refine ⟨rs.reverse, ?_⟩
        rw [World.foldl_emit]
        refine ⟨rfl, hgone, ?_, ?_, .refl _, .refl _, ?_⟩
        · change List.filterMap _ ((rs.map Event.retired).reverse ++ m.world.history) = _
          rw [List.filterMap_append, ← List.map_reverse, List.filterMap_map]
          exact congrArg (· ++ _) (List.filterMap_some ..)
        · change List.filterMap _ ((rs.map Event.retired).reverse ++ m.world.history) = _
          rw [List.filterMap_append, ← List.map_reverse, List.filterMap_map]
          exact congrArg (· ++ _) (List.filterMap_eq_nil_iff.2 fun _ _ => rfl)
        · change ((rs.foldl Bag.push bag).records ++ m.world.domain.abandoned.records).Perm _
          rw [hrecords]
          exact rs.reverse_perm.symm.append_right _

theorem leave_of_gone (hgone : m.site.presence = .destroyed) : m.leave = m.resume := by
  unfold leave Site.leave
  rw [hgone]
  rfl

/-- The frames of its end have nothing more to destroy. -/
theorem parting_bequeaths {f : Frame V} {rest : List (Frame V)} (hstack : m.stack = f :: rest)
    (hf : f.isParting = true) (hgone : m.site.presence = .destroyed) :
    ∃ left, m.Bequeaths [] [] left (proceed { m with stack := rest, control := .resume } f) := by
  have hremainders : m.remainders = f.remainder ++ rest.flatMap Frame.remainder := by
    rw [Run.remainders, hstack]
    rfl
  have hdeparting : m.departing = f.departing ++ rest.flatMap Frame.departing := by
    rw [Run.departing, hstack]
    rfl
  cases f with
  | leave =>
    change ∃ left, m.Bequeaths [] [] left (Run.leave { m with stack := rest, control := .resume })
    rw [leave_of_gone (m := { m with stack := rest, control := .resume }) hgone]
    exact ⟨[], rfl, hgone, rfl, rfl, .of_eq hremainders, .of_eq hdeparting, .refl _⟩
  | abandonRest bag =>
    change ∃ left, m.Bequeaths [] [] left
      (Run.abandonRest { m with stack := rest, control := .resume } bag)
    unfold abandonRest
    split
    · rename_i hempty
      refine ⟨[], rfl, hgone, rfl, rfl, .of_eq hremainders, .of_eq ?_, .refl _⟩
      rw [hdeparting, Frame.departing, (Bag.isEmpty_iff bag).1 hempty]
      rfl
    · rename_i hbag
      have habandon : m.world.domain.abandon bag =
          .ok { m.world.domain with abandoned := m.world.domain.abandoned.push bag } := by
        rw [Domain.abandon, if_neg hbag]
      dsimp only
      rw [habandon]
      exact ⟨bag.records, rfl, hgone, rfl, rfl, .of_eq hremainders, .of_eq hdeparting, .refl _⟩
  | finishExit byPanic =>
    refine ⟨[], rfl, ?_, rfl, rfl, .of_eq hremainders, .of_eq hdeparting, .refl _⟩
    change (World.thread (m.world.setPhase m.thread .exited) m.thread).presence = .destroyed
    rw [World.presence_setPhase]
    exact hgone
  | _ => cases hf

/-- A step of a thread whose context is gone. -/
theorem step_bequeaths (hm : m.Reachable) (hcalm : m.IsCalm)
    (hgone : m.site.presence = .destroyed) :
    ∃ new done left, m.Bequeaths new done left m.step := by
  cases m.step_moves with
  | abandons capacity names _ hstep =>
    obtain ⟨new, hbequeaths⟩ := m.abandon_bequeaths hgone capacity names
    exact ⟨new, [], [], hstep ▸ hbequeaths⟩
  | works new rs hmoves => exact ⟨new, [], [], hmoves.bequeaths hgone rfl rfl⟩
  | goesOn f rest new rs hstack hf hmoves =>
    obtain ⟨hremainder, hplain⟩ := hf hcalm
    refine ⟨new, [], [], hmoves.bequeaths hgone ?_ ?_⟩
    · rw [remainders, hstack, List.flatMap_cons, hremainder]
      rfl
    · have hdeparting : f.departing = [] := by
        cases f with
        | abandonRest bag => cases hplain
        | _ => rfl
      rw [departing, hstack, List.flatMap_cons, hdeparting]
      rfl
  | destroys r rs rest hstack hstep =>
    have hthere := not_lacks_doomed hm.sound hstack
    obtain ⟨hthread, hthreads, hdomain, hretired, hreclaimed, fs, hfs, hnone, hplain⟩ :=
      destroy_spec { m with stack := .reclaim rs :: rest, control := .resume } r hthere
    rw [← hstep] at hthread hthreads hdomain hretired hreclaimed hfs
    refine ⟨[], [r], [], hthread, ?_, hretired, hreclaimed, .of_eq ?_, .of_eq ?_,
      .of_eq (congrArg (fun d : Domain => d.abandoned.records) hdomain)⟩
    · rw [site, World.site, World.thread, hthreads, hthread]
      exact hgone
    · rw [remainders, remainders, hfs, hstack, List.flatMap_append, hnone]
      rfl
    · rw [departing, departing, hfs, hstack, List.flatMap_append,
        Frame.departing_of_not_parting hplain]
      rfl
  | parts f rest hstack hf hstep =>
    obtain ⟨left, hbequeaths⟩ := parting_bequeaths hstack hf hgone
    exact ⟨[], [], left, hstep ▸ hbequeaths⟩

theorem complete_bequeaths (hm : m.Reachable) (hcalm : ∀ k, (m.complete k).IsCalm) {i j : Nat}
    (hgone : (m.complete i).site.presence = .destroyed) (hij : i ≤ j) :
    ∃ new done left, (m.complete i).Bequeaths new done left (m.complete j) := by
  induction hij with
  | refl => exact ⟨[], [], [], .refl hgone⟩
  | @step j _ ih =>
    obtain ⟨new, done, left, hbequeaths⟩ := ih
    obtain ⟨new', done', left', hstep⟩ :=
      step_bequeaths (hm.complete j) (hcalm j) hbequeaths.gone
    rw [complete_succ]
    exact ⟨_, _, _, hbequeaths.trans hstep⟩

end gone

/-- What has become of the records that a thread was responsible for at the beginning of its end. -/
structure HandsOver (m : Run V) (before rs new : List Retired) (n : Run V) : Prop where
  reclamations : n.world.reclamations = rs ++ m.world.reclamations
  retirements : n.world.retirements = new ++ m.world.retirements
  unprotected : rs.Perm (before.filter fun r => !m.world.domain.protects r)
  once : (rs.map (·.address)).Nodup
  spared : ∀ r ∈ new, ∀ x ∈ rs, x.address ≠ r.address
  abandoned : n.world.domain.abandoned.records.Perm
    (before.filter m.world.domain.protects ++ new)
  distinct : (n.world.domain.abandoned.records.map (·.address)).Nodup
  nonempty : ∀ b ∈ n.world.domain.abandoned.bags, b.isEmpty = false

theorem records_subperm (m : Run V) (t : ThreadId) :
    (m.world.site t).records.Subperm (m.world.account m.holdings) := by
  refine List.subperm_ext_iff.2 fun r _ => ?_
  have hbag := (m.world.records_subperm_bagged t).count_le r
  rw [World.count_account, Site.records, List.count_append]
  change List.count r (m.world.thread t).presence.records +
    List.count r m.world.domain.abandoned.records ≤ _
  omega

section left
variable {m : Run V} {c : Context} {rest : List (Frame V)} (hm : m.Reachable)
  (hstack : m.stack = .leave :: rest) (hcontrol : m.control = .resume)
  (hc : m.site.presence = .live c)
include hstack hcontrol hc

/-- The first step takes the context away. -/
theorem leave_first : ∃ rs bag, (m.complete 1).site.presence = .destroyed ∧
    (m.complete 1).control = .resume ∧
    (m.complete 1).stack = .reclaim rs :: .abandonRest bag :: rest ∧
    (m.complete 1).world.domain.abandoned.bags = [] ∧
    rs.Perm (m.site.records.filter fun r => !m.world.domain.protects r) ∧
    bag.records.Perm (m.site.records.filter m.world.domain.protects) ∧
    (m.complete 1).world.retirements = m.world.retirements ∧
    (m.complete 1).world.reclamations = m.world.reclamations := by
  obtain ⟨rs, bag, s, hleave, hgone, hbags, hdrained, hkept⟩ := Site.leave_live hc
  have hfirst : m.complete 1 = ((setSite { m with stack := rest, control := .resume } s).push
      (.abandonRest bag)).push (.reclaim rs) := by
    rw [complete_succ, complete_zero, step_of_resume hstack hcontrol]
    change Run.leave { m with stack := rest, control := .resume } = _
    unfold leave
    rw [show Run.site { m with stack := rest, control := .resume } = m.site from rfl, hleave]
    rfl
  rw [hfirst]
  refine ⟨rs, bag, ?_, rfl, rfl, hbags, hdrained, hkept, rfl, rfl⟩
  exact (m.world.presence_setSite m.thread s).trans hgone

include hm

/-- The reclamation comes to its end, and then what is left of the bag is abandoned. -/
theorem leave_ends (hcalm : ∀ k, (m.complete k).IsCalm) (hends : m.ScriptsEnd) :
    ∃ i ≥ 1, (m.complete i).control = .resume ∧ (m.complete i).stack = rest := by
  obtain ⟨rs, bag, -, hresumed, hfirst, -⟩ := leave_first hstack hcontrol hc
  obtain ⟨i, hi, hbelow⟩ := reclamation_ends hcalm hends (fun k => (hm.complete k).sound) hfirst
    hresumed
  have hstep := step_of_resume hbelow hi
  rw [← complete_succ] at hstep
  refine ⟨i + 1, Nat.le_add_left 1 i, ?_⟩
  rw [hstep]
  change (Run.abandonRest { m.complete i with stack := rest, control := .resume } bag).control = _ ∧
    (Run.abandonRest { m.complete i with stack := rest, control := .resume } bag).stack = _
  unfold abandonRest
  split
  · exact ⟨rfl, rfl⟩
  · rename_i hbag
    dsimp only
    rw [Domain.abandon, if_neg hbag]
    exact ⟨rfl, rfl⟩

/-- The records from the bag of the thread and the abandoned ones are told apart once and for all,
and what is retired afterwards joins those that were kept. -/
theorem leave_hands_over (hcalm : ∀ k, (m.complete k).IsCalm) {i j : Nat} (hi : 1 ≤ i)
    (hij : i ≤ j) (hremainders : (m.complete i).remainders = [])
    (hdeparting : (m.complete i).departing = []) (hrest : rest.flatMap Frame.remainder = [])
    (hrest' : rest.flatMap Frame.departing = []) :
    ∃ rs new, m.HandsOver m.site.records rs new (m.complete j) := by
  obtain ⟨rs, bag, hgone, -, hfirst, hbags, hdrained, hkept, hretired, hreclaimed⟩ :=
    leave_first hstack hcontrol hc
  obtain ⟨_, _, _, hbefore⟩ := complete_bequeaths hm hcalm hgone hi
  obtain ⟨_, _, _, hafter⟩ := complete_bequeaths hm hcalm hbefore.gone hij
  obtain ⟨hnone, hnone'⟩ := hafter.nothing_left hremainders hdeparting
  obtain ⟨new, done, left, hall⟩ := complete_bequeaths hm hcalm hgone (Nat.le_trans hi hij)
  -- What was drained has been reclaimed and what was kept has been abandoned.
  have hdone : done.Perm (m.site.records.filter fun r => !m.world.domain.protects r) := by
    have hperm := hall.remainders
    rw [hnone, List.append_nil, remainders, hfirst, List.flatMap_cons, List.flatMap_cons,
      hrest] at hperm
    change (rs ++ []).Perm done at hperm
    rw [List.append_nil] at hperm
    exact hperm.symm.trans hdrained
  have hleft : left.Perm (m.site.records.filter m.world.domain.protects) := by
    have hperm := hall.departing
    rw [hnone', List.append_nil, departing, hfirst, List.flatMap_cons, List.flatMap_cons,
      hrest'] at hperm
    change (bag.records ++ []).Perm left at hperm
    rw [List.append_nil] at hperm
    exact hperm.symm.trans hkept
  have habandoned : (m.complete j).world.domain.abandoned.records.Perm
      (m.site.records.filter m.world.domain.protects ++ new) := by
    have hperm := hall.abandoned
    rw [Abandoned.records, Abandoned.records, hbags, List.flatMap_nil, List.append_nil] at hperm
    exact hperm.trans (hleft.append_right new)
  have hretirements := hall.retirements
  rw [hretired] at hretirements
  -- No address was retired twice.
  have hdistinct := (hm.complete j).sound.nodup_retirements
  rw [hretirements, List.map_append] at hdistinct
  obtain ⟨hnew, -, hdisjoint⟩ := List.nodup_append.1 hdistinct
  have hsubperm := m.records_subperm m.thread
  have hmem (r : Retired) (hr : r ∈ m.site.records) : r ∈ m.world.retirements :=
    hm.account_subperm.subset (hsubperm.subset hr)
  have hnodup : (m.site.records.map (·.address)).Nodup := by
    obtain ⟨l, hperm, hsub⟩ := hsubperm
    exact (hperm.map _).nodup_iff.1 ((hsub.map _).nodup hm.sound.nodup_account)
  refine ⟨done, new, ?_, hretirements, hdone, ?_, fun r hr x hx => ?_, habandoned, ?_,
    (hm.complete j).abandoned_nonempty⟩
  · rw [hall.reclamations, hreclaimed]
  · exact (hdone.map _).nodup_iff.2 ((List.filter_sublist.map _).nodup hnodup)
  · have hx := hmem x (List.mem_of_mem_filter (hdone.mem_iff.1 hx))
    exact fun he => hdisjoint _ (List.mem_map_of_mem hr) _ (List.mem_map_of_mem hx) he.symm
  · refine (habandoned.map _).nodup_iff.2 ?_
    rw [List.map_append, List.nodup_append]
    refine ⟨(List.filter_sublist.map _).nodup hnodup, hnew, fun a ha b hb he => ?_⟩
    obtain ⟨x, hx, rfl⟩ := List.mem_map.1 ha
    exact hdisjoint b hb _ (List.mem_map_of_mem (hmem x (List.mem_of_mem_filter hx))) he.symm

end left

def exitBy (m : Run V) (t : ThreadId) (byPanic : Bool) : Run V := m.world.begin ⟨t, .exit byPanic⟩

/-- When a thread that has a context comes to its end, the deleters that are called are those of the
records in its bag and of the abandoned ones that are not protected, provided that the scripts of
destructors come to their end and do not panic. From the moment on at which the destruction of the
context is over until the thread has ended, the protected ones among them are abandoned, and so is
what destructors retire meanwhile. -/
theorem Reachable.exit_hands_over {m : Run V} (hm : m.Reachable) (ho : m.outcome.isSome = true)
    {t : ThreadId} (ht : (m.world.thread t).phase ≠ .exited) {c : Context}
    (hc : (m.world.thread t).presence = .live c) (byPanic : Bool)
    (hcalm : ∀ k, ((m.exitBy t byPanic).complete k).IsCalm)
    (hends : (m.exitBy t byPanic).ScriptsEnd) :
    ∃ i k, let e := m.exitBy t byPanic
      i ≤ k ∧ (e.complete i).control = .resume ∧
        (e.complete i).stack =
          [.script (m.world.thread t).exitActs, .leave, .finishExit byPanic] ∧
        (e.complete k).outcome = some (.ok (.ended byPanic)) ∧
        ∀ j ≥ i, ∃ rs new, m.HandsOver (c.bag.records ++ m.world.domain.abandoned.records) rs new
          (e.complete j) ∧ ∀ r, r ∈ rs ↔ ∃! j', j' < j ∧ (e.complete j').Destroys r := by
  have hacts : ((m.world.enrol t).thread t).exitActs = (m.world.thread t).exitActs :=
    congrArg Thread.exitActs (m.world.thread_enrol t t)
  have he : (m.exitBy t byPanic).Reachable := .next _ hm ho ht trivial
  have hthread : (m.exitBy t byPanic).world.thread t =
      { m.world.thread t with phase := .exiting } := by
    refine ((m.world.enrol t).thread_insert t _ t).trans ?_
    rw [if_pos rfl, World.thread_enrol]
  have hlive : (m.exitBy t byPanic).site.presence = .live c := by
    change ((m.exitBy t byPanic).world.thread t).presence = _
    rw [hthread]
    exact hc
  have hstack : (m.exitBy t byPanic).stack =
      [.leave, .script (m.world.thread t).exitActs, .leave, .finishExit byPanic] := by
    rw [← hacts]
    rfl
  have hsite : (m.exitBy t byPanic).site.records =
      c.bag.records ++ m.world.domain.abandoned.records :=
    Site.records_of_live hlive
  obtain ⟨i, hi, hresumed, hleft⟩ := leave_ends he hstack rfl hlive hcalm hends
  obtain ⟨k, hresumed', hacted, -⟩ := script_left hcalm (P := fun _ => True)
    (fun _ _ _ => trivial) hends hleft trivial
  -- The second time there is no context to destroy.
  have hk : 1 ≤ k := by
    cases k with
    | zero => cases hstack.symm.trans hacted
    | succ k => exact Nat.le_add_left 1 k
  obtain ⟨_, _, hgone, -⟩ := leave_first hstack rfl hlive
  obtain ⟨_, _, _, hbequeaths⟩ := complete_bequeaths he hcalm hgone hk
  have hpassed := (step_of_resume hacted hresumed').trans (leave_of_gone (m :=
    { (m.exitBy t byPanic).complete k with
      stack := [.finishExit byPanic], control := .resume }) hbequeaths.gone)
  rw [← complete_succ] at hpassed
  have hlast : ((m.exitBy t byPanic).complete (k + 1)).stack = [.finishExit byPanic] := by
    rw [hpassed]
    rfl
  have hended := step_of_resume hlast (by rw [hpassed]; rfl)
  rw [← complete_succ] at hended
  have hdone : ((m.exitBy t byPanic).complete (k + 2)).outcome = some (.ok (.ended byPanic)) := by
    rw [hended]
    rfl
  refine ⟨i, k + 2, ?_, hresumed, hleft, hdone, fun j hij => ?_⟩
  · refine Nat.le_of_not_lt fun hlt => ?_
    rw [complete_of_le (by rw [hdone]; rfl) (Nat.le_of_lt hlt), hended] at hleft
    cases hleft
  · obtain ⟨rs, new, h⟩ := leave_hands_over he hstack rfl hlive hcalm hi hij
      (by rw [remainders, hleft]; rfl) (by rw [departing, hleft]; rfl) rfl rfl
    rw [hsite] at h
    exact ⟨rs, new, ⟨h.reclamations, h.retirements, h.unprotected, h.once, h.spared, h.abandoned,
      h.distinct, h.nonempty⟩, he.reclaimed_within h.reclamations⟩

/-- A protected record and another are in the bag of the thread, and a third was abandoned. The
destructor of the second retires a record and a node, and creates a hazard pointer. -/
def parting : Run Nat := idle.following
  (tell 0 9 [.install { minRecords := some 9 }, .create "guarded" [],
    .create "outer" [⟨none, .retire "inner" .custom⟩, ⟨none, .flush⟩,
      ⟨none, .onQueue "queue" .tryDequeue⟩, ⟨none, .newHazard "late" none⟩],
    .create "inner" [], .create "other" [], .createQueue "queue" .yield,
    .onQueue "queue" (.enqueue 5 []), .newHazard "hazard" (some "guarded"),
    .retire "guarded" .boxed, .retire "outer" .boxed] ++
  tell 1 9 [.countRetired] ++
  [(⟨1, .atExit [⟨none, .retire "other" .boxed⟩]⟩, 9), (⟨1, .exit false⟩, 12)])

theorem parting_reachable : parting.Reachable :=
  .following (.refl trivial) _ (by decide +kernel)

theorem parting_hands_over :
    parting.Reachable ∧ (∀ k, ((parting.exitBy 0 false).complete k).IsCalm) ∧
      (parting.exitBy 0 false).ScriptsEnd ∧
      ∃ c, (parting.world.thread 0).presence = .live c ∧ c.bag.records.map (·.address) = [1, 2] ∧
        parting.world.domain.abandoned.records.map (·.address) = [4] ∧
        ∃ k rs new, let n := (parting.exitBy 0 false).complete k
          parting.HandsOver (c.bag.records ++ parting.world.domain.abandoned.records) rs new n ∧
          (∀ r, r ∈ rs ↔ ∃! j, j < k ∧ ((parting.exitBy 0 false).complete j).Destroys r) ∧
          n.outcome = some (.ok (.ended false)) ∧
          n.world.reclamations.map (·.address) = [4, 2] ∧
          n.world.domain.abandoned.bags.map (·.records.map (·.address)) = [[1], [5], [3]] := by
  have hover : ((parting.exitBy 0 false).complete 31).outcome.isSome = true := by decide +kernel
  have hcalm : ∀ k, ((parting.exitBy 0 false).complete k).IsCalm :=
    forall_complete hover (P := IsCalm) (by decide +kernel)
  have hends := scriptsEnd_of_outcome hover
  have hrecords : (parting.world.thread 0).presence.records.map (·.address) = [1, 2] := by
    decide +kernel
  cases hc : (parting.world.thread 0).presence with
  | live c =>
    rw [hc] at hrecords
    obtain ⟨i, k, hik, -, -, hdone, hall⟩ := parting_reachable.exit_hands_over (by decide +kernel)
      (by decide +kernel) hc false hcalm hends
    obtain ⟨rs, new, h, hdestroyed⟩ := hall k hik
    have hsame : (parting.exitBy 0 false).complete k = (parting.exitBy 0 false).complete 31 := by
      rcases Nat.le_total k 31 with hk | hk
      · exact (complete_of_le (by rw [hdone]; rfl) hk).symm
      · exact complete_of_le hover hk
    refine ⟨parting_reachable, hcalm, hends, c, rfl, hrecords, by decide +kernel, k, rs, new, h,
      hdestroyed, hdone, ?_, ?_⟩ <;> rw [hsame] <;> decide +kernel
  | borrowed c => exact absurd hc (parting_reachable.free 0 c)
  | absent | destroyed =>
    rw [hc] at hrecords
    cases hrecords

end Run
end Reclaim
