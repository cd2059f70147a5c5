import Reclaim.Proofs.TableEntries
import Reclaim.Stack

set_option autoImplicit false

namespace Reclaim.Stack
variable {α : Type} {s s' : Stack α} {start : Option Address} {a : Address} {c : StackCell α}
  {x : Address × α} {l l' : List (Address × α)}

inductive Leads (s : Stack α) : Option Address → List (Address × α) → Prop where
  | nil : Leads s none []
  | cons {a : Address} {c : StackCell α} {l : List (Address × α)} : s.cells.get? a = some c →
      Leads s c.next l → Leads s (some a) ((a, c.content) :: l)

namespace Leads

theorem unique (h : s.Leads start l) (h' : s.Leads start l') : l = l' := by
  induction h generalizing l' with
  | nil =>
    cases h'
    rfl
  | cons hc _ ih =>
    cases h' with
    | cons hc' h' =>
      obtain rfl := Option.some.inj (hc.symm.trans hc')
      rw [ih h']

theorem get (h : s.Leads start l) (hx : x ∈ l) :
    ∃ c, s.cells.get? x.1 = some c ∧ c.content = x.2 := by
  induction h with
  | nil => cases hx
  | cons hc _ ih =>
    rcases List.mem_cons.1 hx with rfl | hx
    · exact ⟨_, hc, rfl⟩
    · exact ih hx

theorem eq_cons (h : s.Leads (some a) l) (hc : s.cells.get? a = some c) :
    ∃ rest, l = (a, c.content) :: rest ∧ s.Leads c.next rest := by
  cases h with
  | cons hc' hrest =>
    obtain rfl := Option.some.inj (hc.symm.trans hc')
    exact ⟨_, rfl, hrest⟩

theorem eq_nil (h : s.Leads none l) : l = [] := by
  cases h
  rfl

theorem from_mem (h : s.Leads start l) (hx : x ∈ l) :
    ∃ front rest, l = front ++ rest ∧ s.Leads (some x.1) rest := by
  induction h with
  | nil => cases hx
  | @cons a c l hc hrest ih =>
    rcases List.mem_cons.1 hx with rfl | hx
    · exact ⟨[], _, rfl, .cons hc hrest⟩
    · obtain ⟨front, rest, rfl, hfrom⟩ := ih hx
      exact ⟨(a, c.content) :: front, rest, rfl, hfrom⟩

/-- A chain that came to a cell twice would go on as long from both of them. -/
theorem nodup (h : s.Leads start l) : (l.map (·.1)).Nodup := by
  induction h with
  | nil => exact .nil
  | @cons a c l hc hrest ih =>
    refine List.nodup_cons.2 ⟨fun hmem => ?_, ih⟩
    obtain ⟨x, hx, rfl⟩ := List.mem_map.1 hmem
    obtain ⟨front, rest, rfl, hfrom⟩ := hrest.from_mem hx
    have hlength := congrArg List.length (unique (.cons hc hrest) hfrom)
    simp only [List.length_cons, List.length_append] at hlength
    omega

theorem congr (h : s.Leads start l) (hsame : ∀ x ∈ l, s'.cells.get? x.1 = s.cells.get? x.1) :
    s'.Leads start l := by
  induction h with
  | nil => exact .nil
  | cons hc _ ih =>
    refine .cons ((hsame _ List.mem_cons_self).trans hc) ?_
    exact ih fun x hx => hsame x (List.mem_cons_of_mem _ hx)

theorem length_le_size (h : s.Leads start l) : l.length ≤ s.cells.size := by
  rw [← List.length_map (f := (·.1))]
  refine Table.length_le_size h.nodup fun a ha => ?_
  obtain ⟨x, hx, rfl⟩ := List.mem_map.1 ha
  obtain ⟨c, hc, -⟩ := h.get hx
  rw [hc]
  rfl

theorem chainFrom_eq (h : s.Leads start l) {fuel : Nat} (hfuel : l.length ≤ fuel) :
    s.chainFrom fuel start = l := by
  induction h generalizing fuel with
  | nil => cases fuel <;> rfl
  | cons hc _ ih =>
    cases fuel with
    | zero => simp at hfuel
    | succ fuel => simp only [chainFrom, hc, ih (Nat.le_of_succ_le_succ hfuel)]

theorem chain_eq (h : s.Leads start l) : s.chain start = l := h.chainFrom_eq h.length_le_size

end Leads

end Reclaim.Stack
