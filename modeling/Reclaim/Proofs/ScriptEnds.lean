import Reclaim.Proofs.ThreadEnds

set_option autoImplicit false

namespace Reclaim
variable {V : Type}

def Frame.isScript : Frame V → Bool
  | .script _ | .acting _ _ => true
  | _ => false

namespace Run

theorem complete_of_going {m : Run V} (h : m.outcome = none) (k : Nat) :
    m.complete (k + 1) = m.step.complete k := by
  rw [complete, h]

theorem complete_of_outcome {m : Run V} (h : m.outcome.isSome = true) (k : Nat) :
    m.complete k = m := by
  obtain ⟨r, hr⟩ := Option.isSome_iff_exists.1 h
  cases k with
  | zero => rfl
  | succ k => rw [complete, hr]

theorem complete_zero (m : Run V) : m.complete 0 = m := rfl

theorem complete_succ (m : Run V) (k : Nat) : m.complete (k + 1) = (m.complete k).step := by
  cases ho : m.outcome with
  | none =>
    induction k generalizing m with
    | zero => exact complete_of_going ho 0
    | succ k ih =>
      rw [complete_of_going ho, complete_of_going ho]
      cases ho' : m.step.outcome with
      | none => exact ih m.step ho'
      | some _ =>
        have hover : m.step.outcome.isSome = true := by rw [ho']; rfl
        rw [complete_of_outcome hover, complete_of_outcome hover, step_of_outcome hover]
  | some _ =>
    have hover : m.outcome.isSome = true := by rw [ho]; rfl
    rw [complete_of_outcome hover, complete_of_outcome hover, step_of_outcome hover]

/-- A frame of the kind `p` is on the stack, with the work `rest` suspended below it. -/
def IsAbove (p : Frame V → Prop) (rest : List (Frame V)) (m : Run V) : Prop :=
  ∃ fs f, m.stack = fs ++ f :: rest ∧ p f ∧ fs.any Frame.isFinal = false

section above
variable {p : Frame V → Prop} {rest : List (Frame V)} {m n : Run V}

theorem IsAbove.length_lt (h : m.IsAbove p rest) : rest.length < m.stack.length := by
  obtain ⟨fs, f, hstack, -, -⟩ := h
  rw [hstack, List.length_append, List.length_cons]
  omega

theorem IsAbove.confined (h : m.IsAbove p rest) (hc : m.Confined n) : n.IsAbove p rest := by
  obtain ⟨fs, f, hstack, hf, hfs⟩ := h
  obtain ⟨gs, hgs, hplain⟩ := hc.stack
  refine ⟨gs ++ fs, f, by rw [hgs, hstack, List.append_assoc], hf, ?_⟩
  rw [List.any_append, hplain, hfs]
  rfl

variable (hp : ∀ f, p f → f.isFinal = false)
include hp

theorem IsAbove.top_plain (h : m.IsAbove p rest) {g : Frame V} {below : List (Frame V)}
    (hstack : m.stack = g :: below) : g.isFinal = false := by
  obtain ⟨fs, f, hfs, hf, hplain⟩ := h
  rw [hfs] at hstack
  cases fs with
  | nil =>
    obtain ⟨rfl, -⟩ := List.cons.inj hstack
    exact hp _ hf
  | cons g' fs =>
    obtain ⟨rfl, -⟩ := List.cons.inj hstack
    rw [List.any_cons, Bool.or_eq_false_iff] at hplain
    exact hplain.1

theorem IsAbove.world_confined (h : m.IsAbove p rest) :
    m.world.Confined m.thread m.step.world := by
  rcases m.step_confined with hc | ⟨g, below, hg, -, hc⟩ | ⟨g, below, hg, hfinal, -⟩
  · exact hc.world
  · exact hc.world
  · rw [h.top_plain hp hg] at hfinal
    cases hfinal

/-- It is enough to look at the steps in which the frame is the innermost one. -/
theorem step_above {Q : Run V → Prop}
    (htop : ∀ f, p f → m.stack = f :: rest → m.step.IsAbove p rest ∨ Q m.step)
    (h : m.IsAbove p rest) : m.step.IsAbove p rest ∨ Q m.step := by
  rcases m.step_confined with hc | ⟨g, below, hg, -, hc⟩ | ⟨g, below, hg, hfinal, -⟩
  · exact .inl (h.confined hc)
  · obtain ⟨fs, f, hstack, hf, hfs⟩ := h
    cases fs with
    | nil => exact htop f hf hstack
    | cons g' fs =>
      obtain ⟨rfl, rfl⟩ := List.cons.inj (hg.symm.trans hstack)
      rw [List.any_cons, Bool.or_eq_false_iff] at hfs
      refine .inl (IsAbove.confined (m := { m with stack := fs ++ f :: rest }) ?_ hc)
      exact ⟨fs, f, rfl, hf, hfs.2⟩
  · rw [h.top_plain hp hg] at hfinal
    cases hfinal

end above

/-! Scripts come to their end. -/

abbrev InScript (rest : List (Frame V)) (m : Run V) : Prop :=
  m.IsAbove (fun f => f.isScript = true) rest

theorem script_plain (f : Frame V) (hf : f.isScript = true) : f.isFinal = false := by
  cases f <;> first | rfl | cases hf

/-- The frame of the script is the innermost one. -/
theorem step_script {m : Run V} {rest : List (Frame V)} {f : Frame V} (hcalm : m.IsCalm)
    (hf : f.isScript = true) (hstack : m.stack = f :: rest) :
    m.step.InScript rest ∨ m.step.control = .resume ∧ m.step.stack = rest := by
  have hstays {n : Run V} {f : Frame V} (hn : n.stack = f :: rest) (hf : f.isScript = true) :
      n.InScript rest := ⟨[], f, hn, hf, rfl⟩
  obtain ⟨w, t, stack, control⟩ := m
  obtain rfl : stack = f :: rest := hstack
  cases control with
  | perform op => exact .inl ((hstays rfl hf).confined (perform_confined _ op))
  | unwind p => exact absurd rfl (hcalm p)
  | parked | dangling => exact .inl (hstays rfl hf)
  | resume =>
    cases f with
    | script acts =>
      cases acts with
      | nil => exact .inr ⟨rfl, rfl⟩
      | cons act acts =>
        obtain ⟨label, op⟩ := act
        exact .inl (hstays (f := .acting label acts) rfl rfl)
    | acting => exact .inl (hstays (f := .script _) rfl rfl)
    | _ => cases hf
  | answer a =>
    cases f with
    | script | acting => exact .inl (hstays (f := .script _) rfl rfl)
    | _ => cases hf

/-- The destructor of a value that was in a slot is a script. -/
theorem dropSlot_cases (m : Run V) (s : Slot (Payload V)) :
    (m.dropSlot s).control = .resume ∧ (m.dropSlot s).world.memory = m.world.memory ∧
      (m.dropSlot s).world.freed = m.world.freed ∧
      ((m.dropSlot s).stack = m.stack ∨ ∃ acts, (m.dropSlot s).stack = .script acts :: m.stack) := by
  unfold dropSlot
  split
  · exact ⟨rfl, rfl, rfl, .inl rfl⟩
  · exact ⟨rfl, rfl, rfl, .inr ⟨_, rfl⟩⟩

/-- Every script that the thread begins is left behind at some time. -/
def ScriptsEnd (m : Run V) : Prop :=
  ∀ k acts rest, (m.complete k).stack = .script acts :: rest →
    ∃ j ≥ k, (m.complete j).stack.length ≤ rest.length

theorem complete_of_le {m : Run V} {k : Nat} (h : (m.complete k).outcome.isSome = true) {j : Nat}
    (hj : k ≤ j) : m.complete j = m.complete k := by
  induction hj with
  | refl => rfl
  | step _ ih => rw [complete_succ, ih, step_of_outcome h]

/-- Once the work is over nothing changes. -/
theorem forall_complete {m : Run V} {k : Nat} (h : (m.complete k).outcome.isSome = true)
    {P : Run V → Prop} (hP : ∀ j ≤ k, P (m.complete j)) (j : Nat) : P (m.complete j) := by
  rcases Nat.le_total j k with hj | hj
  · exact hP j hj
  · rw [complete_of_le h hj]
    exact hP k (Nat.le_refl k)

theorem scriptsEnd_of_outcome {m : Run V} {k : Nat}
    (h : (m.complete k).outcome.isSome = true) : m.ScriptsEnd := by
  intro j acts rest _
  refine ⟨max j k, Nat.le_max_left j k, ?_⟩
  rw [complete_of_le h (Nat.le_max_right j k), stack_of_outcome h]
  exact Nat.zero_le _

section ends
variable {m : Run V} (hcalm : ∀ k, (m.complete k).IsCalm) {rest : List (Frame V)}
  {P : Run V → Prop}
  (hP : ∀ k, (m.complete k).InScript rest → P (m.complete k) → P (m.complete k).step)
include hcalm hP

theorem above_or_left {k : Nat} (h : (m.complete k).InScript rest) (hk : P (m.complete k)) {j : Nat}
    (hj : k ≤ j) :
    ((m.complete j).InScript rest ∧ P (m.complete j)) ∨
      ∃ i, (m.complete i).control = .resume ∧ (m.complete i).stack = rest ∧ P (m.complete i) := by
  induction hj with
  | refl => exact .inl ⟨h, hk⟩
  | @step j _ ih =>
    rcases ih with ⟨habove, hj⟩ | hleft
    · have hnext := hP j habove hj
      rw [complete_succ]
      rcases step_above script_plain (Q := fun n => n.control = .resume ∧ n.stack = rest)
        (fun f hf => step_script (hcalm j) hf) habove with hstays | ⟨hcontrol, hstack⟩
      · exact .inl ⟨hstays, hnext⟩
      · exact .inr ⟨j + 1, by rwa [complete_succ], by rwa [complete_succ], by rwa [complete_succ]⟩
    · exact .inr hleft

/-- Once a script is left the work below it goes on, and what its steps keep still holds. -/
theorem script_left (hends : m.ScriptsEnd) {acts : List (Act V)} {k : Nat}
    (hstack : (m.complete k).stack = .script acts :: rest) (hk : P (m.complete k)) :
    ∃ i, (m.complete i).control = .resume ∧ (m.complete i).stack = rest ∧ P (m.complete i) := by
  obtain ⟨j, hj, hlength⟩ := hends k acts rest hstack
  rcases above_or_left hcalm hP ⟨[], _, hstack, rfl, rfl⟩ hk hj with ⟨habove, -⟩ | hleft
  · have hlt := habove.length_lt
    omega
  · exact hleft

end ends

end Run
end Reclaim
