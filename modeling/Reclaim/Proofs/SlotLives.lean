import Reclaim.Slot.Script

/-!
The life of a slot, from its creation until it is dropped. Until somebody claims the value in it,
the value may be overwritten, and the last one is dropped with the slot. A claim ends that: it
succeeds once, nobody finds a value afterwards, and whoever has claimed the value moves it out once
or lets it be. So each value that was put into the slot ends in one way (`Slot.life_ends`).
-/

set_option autoImplicit false

namespace Reclaim.Slot
variable {V : Type}

structure Entry (V : Type) where
  command : NodeCommand V
  step : Step V

namespace Entry

def claims (e : Entry V) : Bool :=
  match e.command, e.step.result with
  | .invalidate, .ok (.flag won) => won
  | _, _ => false

def finds (e : Entry V) : Bool :=
  match e.command, e.step.result with
  | .isValid, .ok (.flag valid) => valid
  | .value, .ok (.value v) => v.isSome
  | .replace _, .ok (.flag replaced) => replaced
  | _, _ => false

/-- A value that finds none to take the place of does not come into the slot. -/
def stored? (e : Entry V) : Option V :=
  match e.command with
  | .replace v => if e.finds then some v else none
  | _ => none

def overwritten (e : Entry V) : List V :=
  match e.command with
  | .replace _ => e.step.dropped
  | _ => []

def taken? (e : Entry V) : Option V :=
  match e.step.result with
  | .ok (.taken v) => some v
  | _ => none

structure IsQuiet (e : Entry V) : Prop where
  claims : e.claims = false
  stored : e.stored? = none
  overwritten : e.overwritten = []
  taken : e.taken? = none
  dropped : e.step.dropped = []

end Entry

inductive Turn : Slot V → Entry V → Slot V → Prop where
  | rest {s : Slot V} {e : Entry V} : e.IsQuiet → (e.command = .invalidate → s.value? = none) →
      (e.finds = true → s.value?.isSome = true) → (e.command = .take → ∀ v, s ≠ .claimed v) →
      Turn s e s
  | overwrite (old v : V) (node : Option (Node V)) :
      Turn (.full old) ⟨.replace v, { result := .ok (.flag true), dropped := [old], node }⟩ (.full v)
  | claim (v : V) (node : Option (Node V)) :
      Turn (.full v) ⟨.invalidate, { result := .ok (.flag true), node }⟩ (.claimed v)
  | moveOut (v : V) (node : Option (Node V)) :
      Turn (.claimed v) ⟨.take, { result := .ok (.taken v), dropped := [v], node }⟩ .vacant

theorem performOn_turn (n : Node V) {c : NodeCommand V} (hc : c ≠ .drop) :
    ∃ n', (performOn n c).node = some n' ∧ Turn n.slot ⟨c, performOn n c⟩ n'.slot := by
  obtain ⟨next, slot⟩ := n
  cases c with
  | drop => exact absurd rfl hc
  | invalidate =>
    cases slot with
    | full v => exact ⟨_, rfl, .claim v _⟩
    | vacant | claimed v =>
      exact ⟨_, rfl, .rest ⟨rfl, rfl, rfl, rfl, rfl⟩ (fun _ => rfl) nofun nofun⟩
  | take =>
    cases slot with
    | claimed v => exact ⟨_, rfl, .moveOut v _⟩
    | vacant | full v =>
      exact ⟨_, rfl, .rest ⟨rfl, rfl, rfl, rfl, rfl⟩ nofun nofun nofun⟩
  | replace v =>
    cases slot with
    | full old => exact ⟨_, rfl, .overwrite old v _⟩
    | vacant | claimed u =>
      exact ⟨_, rfl, .rest ⟨rfl, rfl, rfl, rfl, rfl⟩ nofun nofun nofun⟩
  | isValid | value =>
    refine ⟨_, rfl, .rest ⟨rfl, rfl, rfl, rfl, rfl⟩ nofun ?_ nofun⟩
    cases slot with
    | full v => exact fun _ => rfl
    | vacant | claimed v => nofun
  | malformed | describe | describeNode | nextIsNull =>
    exact ⟨_, rfl, .rest ⟨rfl, rfl, rfl, rfl, rfl⟩ nofun nofun nofun⟩

inductive Turns : Slot V → List (Entry V) → Slot V → Prop where
  | nil (s : Slot V) : Turns s [] s
  | cons {s s₁ s' : Slot V} {e : Entry V} {es : List (Entry V)} : Turn s e s₁ → Turns s₁ es s' →
      Turns s (e :: es) s'

theorem runScript_turns (n : Node V) {commands : List (NodeCommand V)}
    (hkept : NodeCommand.drop ∉ commands) :
    ∃ (steps : List (Step V)) (n' : Node V),
      runScript (some n) (commands.map .onNode) = (steps, n'.slot.value?.toList) ∧
        (List.zipWith Entry.mk commands steps).map (·.command) = commands ∧
        Turns n.slot (List.zipWith Entry.mk commands steps) n'.slot := by
  induction commands generalizing n with
  | nil => exact ⟨[], n, rfl, rfl, .nil _⟩
  | cons c rest ih =>
    obtain ⟨hc, hrest⟩ := List.ne_and_not_mem_of_not_mem_cons hkept
    obtain ⟨n₁, hn₁, hturn⟩ := performOn_turn n (Ne.symm hc)
    obtain ⟨steps, n', hrun, hcommands, hturns⟩ := ih n₁ hrest
    refine ⟨performOn n c :: steps, n', ?_, congrArg (c :: ·) hcommands, .cons hturn hturns⟩
    rw [List.map_cons, runScript]
    simp only [perform, hn₁, hrun]

def made : Option V → Slot V
  | some v => .full v
  | none => .vacant

/-- What was done to a slot that was made with `created`, and what was dropped with the slot. -/
structure Life (V : Type) where
  created : Option V
  entries : List (Entry V)
  dropped : List V

def life (created : Option V) (commands : List (NodeCommand V)) : Life V :=
  let script := runScript none (.create (made created) :: commands.map .onNode)
  { created
    entries := List.zipWith Entry.mk commands script.1.tail
    dropped := script.2 }

namespace Life

def stored (l : Life V) : List V := l.created.toList ++ l.entries.filterMap Entry.stored?

def overwritten (l : Life V) : List V := l.entries.flatMap Entry.overwritten

def taken (l : Life V) : List V := l.entries.filterMap Entry.taken?

def claims (l : Life V) : Nat := l.entries.countP Entry.claims

/-- All values but the last were overwritten, and there are three ways in which the last one
ends. -/
inductive Ends (l : Life V) : Prop where
  | empty : l.claims = 0 → l.stored = [] → l.overwritten = [] → l.taken = [] → l.dropped = [] →
      Ends l
  | dropped (v : V) : l.claims = 0 → l.stored = l.overwritten ++ [v] → l.taken = [] →
      l.dropped = [v] → Ends l
  | taken (v : V) : l.claims = 1 → l.stored = l.overwritten ++ [v] → l.taken = [v] →
      l.dropped = [] → Ends l
  /-- Nobody has moved out the value that was claimed. -/
  | forgotten (v : V) : l.claims = 1 → l.stored = l.overwritten ++ [v] → l.taken = [] →
      l.dropped = [] →
      l.entries.Pairwise (fun e later => e.claims = true → later.command ≠ .take) → Ends l

structure Orderly (l : Life V) : Prop where
  claimed_once : l.claims ≤ 1
  claimed : l.claims = 1 ↔
    l.created.isSome = true ∧ NodeCommand.invalidate ∈ l.entries.map (·.command)
  barred : l.entries.Pairwise fun e later => e.claims = true →
    later.claims = false ∧ later.finds = false
  /-- Nothing else was dropped, where what was taken is dropped by the taker. -/
  accounted : l.entries.flatMap (·.step.dropped) = l.overwritten ++ l.taken
  ends : l.Ends

theorem Orderly.cons_quiet {created : Option V} {e : Entry V} {es : List (Entry V)}
    {dropped : List V} (h : Orderly ⟨created, es, dropped⟩) (he : e.IsQuiet)
    (hrefused : created.isSome = true → e.command ≠ .invalidate) :
    Orderly ⟨created, e :: es, dropped⟩ := by
  have hclaims : claims ⟨created, e :: es, dropped⟩ = claims ⟨created, es, dropped⟩ :=
    List.countP_cons_of_neg (by simp [he.claims])
  have hstored : stored ⟨created, e :: es, dropped⟩ = stored ⟨created, es, dropped⟩ := by
    rw [stored, stored, List.filterMap_cons_none he.stored]
  have hoverwritten :
      overwritten ⟨created, e :: es, dropped⟩ = overwritten ⟨created, es, dropped⟩ := by
    rw [overwritten, overwritten, List.flatMap_cons, he.overwritten, List.nil_append]
  have htaken : taken ⟨created, e :: es, dropped⟩ = taken ⟨created, es, dropped⟩ := by
    rw [taken, taken, List.filterMap_cons_none he.taken]
  have hnone : ¬ e.claims = true := Bool.eq_false_iff.1 he.claims
  refine ⟨?_, ?_, List.pairwise_cons.2 ⟨fun _ _ hclaim => absurd hclaim hnone, h.barred⟩, ?_, ?_⟩
  · rw [hclaims]
    exact h.claimed_once
  · rw [hclaims, h.claimed, List.map_cons, List.mem_cons]
    exact and_congr_right fun hsome => (or_iff_right (hrefused hsome).symm).symm
  · rw [List.flatMap_cons, he.dropped, hoverwritten, htaken]
    exact h.accounted
  · cases h.ends with
    | empty hc hs ho ht hd =>
      exact .empty (hclaims.trans hc) (hstored.trans hs) (hoverwritten.trans ho) (htaken.trans ht) hd
    | dropped v hc hs ht hd =>
      exact .dropped v (hclaims.trans hc) (by rw [hstored, hoverwritten, hs]) (htaken.trans ht) hd
    | taken v hc hs ht hd =>
      exact .taken v (hclaims.trans hc) (by rw [hstored, hoverwritten, hs]) (htaken.trans ht) hd
    | forgotten v hc hs ht hd hleft =>
      exact .forgotten v (hclaims.trans hc) (by rw [hstored, hoverwritten, hs]) (htaken.trans ht)
        hd (List.pairwise_cons.2 ⟨fun _ _ hclaim => absurd hclaim hnone, hleft⟩)

theorem Orderly.cons_overwrite {old v : V} {node : Option (Node V)} {es : List (Entry V)}
    {dropped : List V} (h : Orderly ⟨some v, es, dropped⟩) :
    Orderly ⟨some old,
      ⟨.replace v, { result := .ok (.flag true), dropped := [old], node }⟩ :: es, dropped⟩ := by
  refine ⟨h.claimed_once, ?_,
    List.pairwise_cons.2 ⟨fun _ _ hclaim => absurd hclaim Bool.false_ne_true, h.barred⟩, ?_, ?_⟩
  · refine h.claimed.trans (and_congr_right fun _ => ?_)
    rw [List.map_cons, List.mem_cons]
    exact (or_iff_right nofun).symm
  · exact congrArg (old :: ·) h.accounted
  · cases h.ends with
    | empty _ hs => cases hs
    | dropped u hc hs ht hd => exact .dropped u hc (congrArg (old :: ·) hs) ht hd
    | taken u hc hs ht hd => exact .taken u hc (congrArg (old :: ·) hs) ht hd
    | forgotten u hc hs ht hd hleft =>
      exact .forgotten u hc (congrArg (old :: ·) hs) ht hd
        (List.pairwise_cons.2 ⟨fun _ _ hclaim => absurd hclaim Bool.false_ne_true, hleft⟩)

end Life

namespace Turns
variable {es : List (Entry V)} {s' : Slot V}

/-- From a slot without a value none comes. -/
theorem of_vacant (h : Turns .vacant es s') :
    s' = .vacant ∧ ∀ e ∈ es, e.IsQuiet ∧ e.finds = false := by
  generalize hs : Slot.vacant = s at h
  induction h with
  | nil => exact ⟨hs ▸ rfl, fun _ he => absurd he List.not_mem_nil⟩
  | @cons s s₁ s' e es hturn _ ih =>
    cases hturn with
    | rest hquiet _ hfinds =>
      obtain ⟨hend, hall⟩ := ih hs
      refine ⟨hend, List.forall_mem_cons.2 ⟨⟨hquiet, Bool.eq_false_iff.2 fun he => ?_⟩, hall⟩⟩
      have hsome := hfinds he
      rw [← hs] at hsome
      cases hsome
    | _ => cases hs

/-- A value that was claimed is found by nobody, and is moved out once or never. -/
theorem of_claimed {v : V} (h : Turns (.claimed v) es s') :
    (∀ e ∈ es, e.claims = false ∧ e.finds = false ∧ e.stored? = none ∧ e.overwritten = []) ∧
      es.flatMap (·.step.dropped) = es.filterMap Entry.taken? ∧ s'.value? = none ∧
      (es.filterMap Entry.taken? = [v] ∨
        es.filterMap Entry.taken? = [] ∧ ∀ e ∈ es, e.command ≠ .take) := by
  generalize hs : Slot.claimed v = s at h
  induction h with
  | nil =>
    exact ⟨fun _ he => absurd he List.not_mem_nil, rfl, hs ▸ rfl,
      .inr ⟨rfl, fun _ he => absurd he List.not_mem_nil⟩⟩
  | @cons s s₁ s' e es hturn hturns ih =>
    cases hturn with
    | rest hquiet _ hfinds hkept =>
      obtain ⟨hall, hdropped, hend, htaken⟩ := ih hs
      have hblind : e.finds = false := Bool.eq_false_iff.2 fun he => by
        have hsome := hfinds he
        rw [← hs] at hsome
        cases hsome
      refine ⟨List.forall_mem_cons.2
        ⟨⟨hquiet.claims, hblind, hquiet.stored, hquiet.overwritten⟩, hall⟩, ?_, hend, ?_⟩
      · rw [List.flatMap_cons, hquiet.dropped, List.filterMap_cons_none hquiet.taken]
        exact hdropped
      · rw [List.filterMap_cons_none hquiet.taken]
        refine htaken.imp id fun ⟨hnone, hleft⟩ => ⟨hnone, List.forall_mem_cons.2 ⟨?_, hleft⟩⟩
        exact fun he => hkept he v hs.symm
    | moveOut u node =>
      obtain rfl := Slot.claimed.inj hs
      obtain ⟨rfl, hall⟩ := hturns.of_vacant
      have htaken : es.filterMap Entry.taken? = [] :=
        List.filterMap_eq_nil_iff.2 fun e he => (hall e he).1.taken
      have hdropped : es.flatMap (·.step.dropped) = [] :=
        List.flatMap_eq_nil_iff.2 fun e he => (hall e he).1.dropped
      refine ⟨List.forall_mem_cons.2 ⟨⟨rfl, rfl, rfl, rfl⟩, fun e he => ?_⟩, ?_, rfl, .inl ?_⟩
      · obtain ⟨hquiet, hblind⟩ := hall e he
        exact ⟨hquiet.claims, hblind, hquiet.stored, hquiet.overwritten⟩
      · change v :: es.flatMap (·.step.dropped) = v :: es.filterMap Entry.taken?
        rw [hdropped, htaken]
      · change v :: es.filterMap Entry.taken? = [v]
        rw [htaken]
    | _ => cases hs

/-- The claim succeeds, and everything after it is done to a slot that is claimed. -/
theorem orderly_claim {v : V} {node : Option (Node V)} (h : Turns (.claimed v) es s') :
    Life.Orderly ⟨some v, ⟨.invalidate, { result := .ok (.flag true), node }⟩ :: es,
      s'.value?.toList⟩ := by
  obtain ⟨hall, hdropped, hend, htaken⟩ := h.of_claimed
  have hclaims : es.countP Entry.claims = 0 :=
    List.countP_eq_zero.2 fun e he => Bool.eq_false_iff.1 (hall e he).1
  have hstored : es.filterMap Entry.stored? = [] :=
    List.filterMap_eq_nil_iff.2 fun e he => (hall e he).2.2.1
  have hoverwritten : es.flatMap Entry.overwritten = [] :=
    List.flatMap_eq_nil_iff.2 fun e he => (hall e he).2.2.2
  let l : Life V := ⟨some v, ⟨.invalidate, { result := .ok (.flag true), node }⟩ :: es, []⟩
  have hone : l.claims = 1 := (List.countP_cons_of_pos rfl).trans (congrArg (· + 1) hclaims)
  have hvalues : l.stored = l.overwritten ++ [v] := by
    change v :: es.filterMap Entry.stored? = es.flatMap Entry.overwritten ++ [v]
    rw [hstored, hoverwritten]
    rfl
  -- No later command claims, so that only this one has something to say of those after it.
  have honly {P : Entry V → Prop} : es.Pairwise fun e later => e.claims = true → P later :=
    List.pairwise_of_forall_mem_list fun e he _ _ hclaim =>
      absurd hclaim (Bool.eq_false_iff.1 (hall e he).1)
  have hends : l.Ends := by
    rcases htaken with htaken | ⟨htaken, hleft⟩
    · exact .taken v hone hvalues htaken rfl
    · exact .forgotten v hone hvalues htaken rfl
        (List.pairwise_cons.2 ⟨fun e he _ => hleft e he, honly⟩)
  rw [hend]
  refine ⟨Nat.le_of_eq hone, ⟨fun _ => ⟨rfl, List.mem_cons_self⟩, fun _ => hone⟩,
    List.pairwise_cons.2 ⟨fun e he _ => ⟨(hall e he).1, (hall e he).2.1⟩, honly⟩, ?_, hends⟩
  change es.flatMap (·.step.dropped) = es.flatMap Entry.overwritten ++ es.filterMap Entry.taken?
  rw [hoverwritten, hdropped]
  rfl

theorem orderly {created : Option V} (h : Turns (made created) es s') :
    Life.Orderly ⟨created, es, s'.value?.toList⟩ := by
  generalize hs : made created = s at h
  induction h generalizing created with
  | nil =>
    subst hs
    cases created with
    | none => exact ⟨Nat.zero_le 1, ⟨nofun, nofun⟩, .nil, rfl, .empty rfl rfl rfl rfl rfl⟩
    | some v => exact ⟨Nat.zero_le 1, ⟨nofun, nofun⟩, .nil, rfl, .dropped v rfl rfl rfl rfl⟩
  | cons hturn hturns ih =>
    cases hturn with
    | rest hquiet hrefused =>
      refine (ih hs).cons_quiet hquiet fun hsome he => ?_
      obtain ⟨v, rfl⟩ := Option.isSome_iff_exists.1 hsome
      have hnone := hrefused he
      rw [← hs] at hnone
      cases hnone
    | overwrite old v node =>
      cases created with
      | none => cases hs
      | some u =>
        obtain rfl := Slot.full.inj hs
        exact (@ih (some v) rfl).cons_overwrite
    | claim v node =>
      cases created with
      | none => cases hs
      | some u =>
        obtain rfl := Slot.full.inj hs
        exact hturns.orderly_claim
    | moveOut => cases created <;> cases hs

end Turns

/-- Whatever is done to a slot until it is dropped: its value is claimed once if anybody tries and
there is one, and nobody finds a value afterwards. Each value that was put in is overwritten and
dropped then, or it is the last one, which is dropped with the slot if it was never claimed, and
otherwise is moved out once or not at all, and then never dropped by the slot. -/
theorem life_ends (created : Option V) {commands : List (NodeCommand V)}
    (hkept : NodeCommand.drop ∉ commands) :
    (life created commands).entries.map (·.command) = commands ∧
      (life created commands).Orderly := by
  obtain ⟨steps, n', hrun, hcommands, hturns⟩ := runScript_turns { slot := made created } hkept
  have hlife : life created commands =
      ⟨created, List.zipWith Entry.mk commands steps, n'.slot.value?.toList⟩ := by
    rw [life, runScript]
    simp only [perform, hrun, List.tail_cons]
  rw [hlife]
  exact ⟨hcommands, hturns.orderly⟩

/-- The value is replaced once, claimed at the first of two attempts, and moved out after it was
tried to be replaced again. -/
def tried : Life Nat :=
  life (some 1) [.isValid, .replace 2, .take, .invalidate, .replace 3, .invalidate, .take, .value]

theorem tried_ends :
    tried.Orderly ∧ tried.claims = 1 ∧ tried.stored = [1, 2] ∧ tried.overwritten = [1] ∧
      tried.taken = [2] ∧ tried.dropped = [] := by
  have hkept : NodeCommand.drop ∉ ([.isValid, .replace 2, .take, .invalidate, .replace 3,
      .invalidate, .take, .value] : List (NodeCommand Nat)) := by simp
  exact ⟨(life_ends (some 1) hkept).2, rfl, rfl, rfl, rfl, rfl⟩

end Reclaim.Slot
