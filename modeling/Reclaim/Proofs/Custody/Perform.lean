import Reclaim.Proofs.Custody.Effect

set_option autoImplicit false

namespace Reclaim
variable {V : Type} {lossy : Prop} {g : Registry}

namespace World

theorem createHazard_effect {w w' : World V} {t : ThreadId} {h : Hazard}
    (e : w.createHazard t = .ok (h, w')) (hs : List (Holding V)) :
    Effect lossy g w hs w' (.hazard h :: hs) := by
  obtain ⟨i, s, hs, rfl, rfl⟩ := createHazard_eq e
  obtain ⟨hacquired, hrec⟩ := Site.acquireRecord_spec hs
  exact .acquire t i s hacquired hrec

theorem dropHazard_effects {w w' : World V} {t : ThreadId} {h : Hazard} {r : Option Panic}
    (e : w.dropHazard t h = (r, w')) (hl : r.isSome = true → lossy) (hs : List (Holding V)) :
    Effects lossy g w (.hazard h :: hs) w' hs := by
  cases dropHazard_drops e with
  | refused p hp =>
    refine .single (.lose (hl rfl) ?_)
    rintro _ ⟨⟩
    exact Registry.isActive_of_release_error hp
  | forgotten registry p hr => exact .single (.release registry hr)
  | cached registry s hr hs =>
    obtain ⟨hreg, hrec⟩ := Site.cacheRecord_spec hs
    exact .cons (.release registry hr) (.single (.settle t s hreg hrec))

/-- Where the hazard pointer goes without a panic nothing is lost. -/
theorem dropHazard_loses_nothing {w w' : World V} {t : ThreadId} {h : Hazard}
    (e : w.dropHazard t h = (none, w')) (hs : List (Holding V)) :
    Effects lossy g w (.hazard h :: hs) w' hs :=
  dropHazard_effects e (fun h => by cases h) hs

theorem markRetired_effect {w w' : World V} {n : Name} {a : Address}
    (h : w.markRetired n = .ok (a, w')) (d : Deleter) (hs : List (Holding V)) :
    Effect lossy g w hs w' (.condemned ⟨a, d⟩ :: hs) := by
  obtain ⟨e, he, hretired, rfl, rfl⟩ := markRetired_spec h
  exact .condemn n e d he hretired

theorem isRecord_markRetired {w w' : World V} {n : Name} {a b : Address}
    (h : w.markRetired n = .ok (b, w')) : w'.IsRecord a ↔ w.IsRecord a := by
  obtain ⟨e, he, -, -, rfl⟩ := markRetired_spec h
  exact isRecord_retire he

theorem isRecord_of_marked {w w' : World V} {n : Name} {a : Address}
    (h : w.markRetired n = .ok (a, w')) : w.IsRecord a := by
  obtain ⟨e, he, -, rfl, -⟩ := markRetired_spec h
  exact ⟨n, e, he, rfl⟩

theorem isRecord_markAllRetired {w : World V} {a : Address} (names : List (Option Name))
    (ha : w.IsRecord a) : (w.markAllRetired names).2.IsRecord a := by
  induction names generalizing w with
  | nil => exact ha
  | cons n rest ih =>
    cases n with
    | none => exact ha
    | some n =>
      unfold markAllRetired
      split
      · exact ha
      · rename_i b w₁ hmark
        have hrest := ih ((isRecord_markRetired hmark).2 ha)
        split <;> rename_i hall <;> rwa [hall] at hrest

/-- The marked records are condemned, the last one first; where one is refused they are spared. -/
theorem markAllRetired_effects (w : World V) (names : List (Option Name))
    (hs : List (Holding V)) :
    Effects lossy g w hs (w.markAllRetired names).2
      ((((w.markAllRetired names).1.toOption.getD []).reverse.map fun a =>
        .condemned ⟨a, .boxed⟩) ++ hs) := by
  induction names generalizing w hs with
  | nil => exact .refl
  | cons n rest ih =>
    cases n with
    | none => exact .refl
    | some n =>
      unfold markAllRetired
      split
      · exact .refl
      · rename_i a w₁ hmark
        have hfirst : Effect lossy g w hs w₁ (.condemned ⟨a, .boxed⟩ :: hs) :=
          markRetired_effect hmark .boxed hs
        have hrest := ih w₁ (.condemned ⟨a, .boxed⟩ :: hs)
        have hkept := isRecord_markAllRetired rest
          ((isRecord_markRetired hmark).2 (isRecord_of_marked hmark))
        split <;> rename_i hall <;> rw [hall] at hrest hkept
        · exact (Effects.single hfirst).trans (hrest.snoc (.spare hkept))
        · apply (Effects.single hfirst).trans
          simpa [Except.toOption] using hrest

theorem foldl_emit (rs : List Retired) (w : World V) :
    rs.foldl (fun w r => w.emit (.retired r)) w =
      { w with history := (rs.map Event.retired).reverse ++ w.history } := by
  induction rs generalizing w with
  | nil => rfl
  | cons r rs ih =>
    rw [List.foldl_cons, ih]
    simp [emit]

theorem foldl_emit_abandoning (rs : List Retired) (w : World V) (b : Bag) :
    (rs.foldl (fun w r => w.emit (.retired r)) w).abandoning b =
      rs.foldl (fun w r => w.emit (.retired r)) (w.abandoning b) := by
  rw [foldl_emit, foldl_emit]
  rfl

theorem declare_effects (rs : List Retired) (w : World V) (hs : List (Holding V)) :
    Effects lossy g w (rs.map .condemned ++ hs) (rs.foldl (fun w r => w.emit (.retired r)) w)
      (rs.map .unbagged ++ hs) := by
  induction rs generalizing w hs with
  | nil => exact .refl
  | cons r rs ih =>
    refine .cons .declare (.cons (.reorder (List.perm_middle.symm)) ?_)
    refine (ih (w.emit (.retired r)) (.unbagged r :: hs)).snoc (.reorder ?_)
    exact List.perm_middle

theorem markAllRetired_refused {w w' : World V} {names : List (Option Name)} {r : Refusal}
    (h : w.markAllRetired names = (.error r, w')) (hs : List (Holding V)) :
    Effects lossy g w hs w' hs := by
  have hmarked := @markAllRetired_effects V lossy g w names hs
  rwa [h] at hmarked

theorem markAllRetired_condemns {w w' : World V} {names : List (Option Name)}
    {addresses : List Address} (h : w.markAllRetired names = (.ok addresses, w'))
    (hs : List (Holding V)) :
    Effects lossy g w hs w' ((addresses.map fun a => .condemned ⟨a, .boxed⟩) ++ hs) := by
  have hmarked := @markAllRetired_effects V lossy g w names hs
  rw [h] at hmarked
  refine hmarked.snoc (.reorder (List.Perm.append_right _ ?_))
  simp [Except.toOption]

end World

/-- The first step of an operation holds nothing but what is suspended below it. -/
theorem Performs.evolves {t : ThreadId} {w w' : World V} {op : Op V} {fs : List (Frame V)}
    {c : Control V} (h : Performs t w op w' fs c) : w.Evolves [] w' fs c := by
  intro stack
  cases h with
  | answers | panics | strays | overflows => exact .refl
  | installs c => exact .single (.configure _)
  | counts n s hs =>
    obtain ⟨hreg, hrec⟩ := Site.retiredCount_spec hs
    exact .single (.settle t s hreg hrec)
  | flushes rs s hs =>
    obtain ⟨hreg, hperm, hfree⟩ := Site.flush_spec hs
    exact .single (.scan [] _ [] t s hreg hreg.symm hperm hfree)
  | creates name acts hname => exact .single (.createRecord name acts hname)
  | @retireOverflows name d a w₁ p hmark _ =>
    exact .cons (World.markRetired_effect hmark d _)
      (Effects.loseAll (Control.unwind_panics p) [_] rfl)
  | @retires name d a w₁ rs s hmark hs =>
    obtain ⟨hreg, hperm, hfree⟩ := Site.retire_spec hs
    exact .cons (World.markRetired_effect hmark d _)
      (.cons .declare (.single (.scan [⟨a, d⟩] _ [] t s hreg hreg.symm hperm hfree)))
  | abandonRefused r w₁ hmark => exact World.markAllRetired_refused hmark _
  | abandonFails as w₁ p hmark =>
    refine (World.markAllRetired_condemns hmark _).trans
      (Effects.loseAll (Control.unwind_panics p) _ ?_)
    exact Holding.filterMap_map_eq_nil (fun a => .condemned ⟨a, .boxed⟩) _ (fun _ => rfl) as
  | abandons as w₁ b hmark hrecords =>
    rw [← World.foldl_emit_abandoning]
    refine .trans ?_ ((World.declare_effects b.records w₁ _).snoc (.abandon b))
    rw [hrecords, List.map_map]
    exact World.markAllRetired_condemns hmark _
  | stores cells a => exact .single (.storeCells cells)
  | @holds hazard n h h' w₁ w₂ hfree hcreate hpublish =>
    have hsame : w₁.hazards = w.hazards := by
      obtain ⟨i, s, -, -, rfl⟩ := World.createHazard_eq hcreate
      rfl
    refine .cons (World.createHazard_effect hcreate _) ?_
    rcases hpublish with hnot | ⟨a, hpublish⟩
    · obtain ⟨rfl, rfl⟩ := Prod.mk.inj hnot
      exact .single (.giveName hazard (hsame ▸ hfree))
    · obtain ⟨rfl, rfl⟩ := Prod.mk.inj hpublish
      exact .cons (.publish a) (.single (.giveName hazard (hsame ▸ hfree)))
  | tries h w₁ w₂ a hcreate hdrop =>
    exact .cons (World.createHazard_effect hcreate _) (World.dropHazard_loses_nothing hdrop _)
  | drops hazard h w₁ hh hdrop =>
    exact .cons (.takeName hazard hh) (World.dropHazard_loses_nothing hdrop _)
  | dropFails hazard h p w₁ hh hdrop =>
    exact .cons (.takeName hazard hh)
      (World.dropHazard_effects hdrop (fun _ => Control.unwind_panics p) _)
  | publishes hazard h target a hh => exact .single (.republish hazard target hh)
  | createsQueue name strategy hname => exact .single (.createQueue name strategy hname)
  | startsEnqueue e hthere hstage =>
    obtain ⟨queue, stage, current, rest, answer⟩ := e
    obtain rfl : stage = .start := hstage
    exact .single (.enter queue hthere)
  | startsDequeue d hthere hstage =>
    obtain ⟨queue, stage, goal⟩ := d
    obtain rfl : stage = .start := hstage
    exact .single (.enter queue hthere)
  | startsWaiting name q waiter goal hq =>
    refine .cons (.setWaiter name q waiter hq) (.single (.enter name ?_))
    simp [World.setQueue, Table.get?_insert]

end Reclaim
