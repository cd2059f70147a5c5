import Reclaim.World.Session

/-!
The states that a program comes to while one thread acts at a time: some thread that has not ended
is given an instruction and makes steps until its work is over, and then the same or another thread
is given the next one. The states in the midst of an instruction are among them. `Reaches P`
admits only passages on which every state has the property `P`; with `IsCalm` for `P` these are
the passages without a panic.
-/

set_option autoImplicit false

namespace Reclaim.Run
variable {V : Type}

def idle : Run V := { world := {}, thread := 0, control := .answer .done }

inductive Reaches (P : Run V → Prop) (m : Run V) : Run V → Prop where
  | refl : P m → Reaches P m m
  | step {n : Run V} : Reaches P m n → P n.step → Reaches P m n.step
  | next {n : Run V} (i : Instruction V) : Reaches P m n → n.outcome.isSome = true →
      (n.world.thread i.thread).phase ≠ .exited → P (n.world.begin i) →
      Reaches P m (n.world.begin i)

def Reachable (m : Run V) : Prop := Reaches (fun _ => True) idle m

/-- No panic is on its way through the suspended work. -/
def IsCalm (m : Run V) : Prop := ∀ p, m.control ≠ .unwind p

theorem Reaches.weaken {P Q : Run V → Prop} (hPQ : ∀ n, P n → Q n) {m n : Run V}
    (h : Reaches P m n) : Reaches Q m n := by
  induction h with
  | refl hm => exact .refl (hPQ _ hm)
  | step _ hn ih => exact .step ih (hPQ _ hn)
  | next i _ ho hp hn ih => exact .next i ih ho hp (hPQ _ hn)

theorem Reaches.trans {P : Run V → Prop} {k m n : Run V} (hm : Reaches P k m)
    (hn : Reaches P m n) : Reaches P k n := by
  induction hn with
  | refl => exact hm
  | step _ hp ih => exact .step ih hp
  | next i _ ho hphase hp ih => exact .next i ih ho hphase hp

theorem Reaches.start {P : Run V → Prop} {m n : Run V} (h : Reaches P m n) : P m := by
  induction h with
  | refl hm => exact hm
  | step _ _ ih => exact ih
  | next _ _ _ _ _ ih => exact ih

theorem Reaches.reachable {P : Run V → Prop} {m : Run V} (h : Reaches P idle m) : m.Reachable :=
  h.weaken fun _ _ => trivial

theorem Reaches.complete {P : Run V → Prop} {m n : Run V} (h : Reaches P m n) (fuel : Nat)
    (hP : ∀ k ≤ fuel, P (n.complete k)) : Reaches P m (n.complete fuel) := by
  induction fuel generalizing n with
  | zero => exact h
  | succ fuel ih =>
    unfold Run.complete
    split
    · exact h
    · rename_i ho
      have hstep (k : Nat) : n.complete (k + 1) = n.step.complete k := by
        rw [Run.complete]
        simp only [ho]
      refine ih (.step h ?_) fun k hk => ?_
      · have h₁ := hP 1 (Nat.succ_le_succ (Nat.zero_le fuel))
        rwa [hstep 0] at h₁
      · have hk' := hP (k + 1) (Nat.succ_le_succ hk)
        rwa [hstep k] at hk'

theorem Reachable.complete {m : Run V} (h : m.Reachable) (fuel : Nat) :
    (m.complete fuel).Reachable :=
  Reaches.complete h fuel fun _ _ => trivial

def after (m : Run V) (i : Instruction V) (fuel : Nat) : Run V :=
  (m.world.begin i).complete fuel

theorem Reaches.after {P : Run V → Prop} {m n : Run V} (h : Reaches P m n) (i : Instruction V)
    (fuel : Nat) (ho : n.outcome.isSome = true) (hp : (n.world.thread i.thread).phase ≠ .exited)
    (hP : ∀ k ≤ fuel, P ((n.world.begin i).complete k)) : Reaches P m (n.after i fuel) :=
  .complete (.next i h ho hp (hP 0 (Nat.zero_le fuel))) fuel hP

/-- One instruction after the other, each followed for as many steps as are given with it. -/
def following (m : Run V) : List (Instruction V × Nat) → Run V
  | [] => m
  | (i, fuel) :: rest => (m.after i fuel).following rest

/-- Each instruction finds its thread at rest and not ended, and leads through states with the
property `P` only. -/
def Admits (P : Run V → Prop) (m : Run V) : List (Instruction V × Nat) → Prop
  | [] => True
  | (i, fuel) :: rest => m.outcome.isSome = true ∧ (m.world.thread i.thread).phase ≠ .exited ∧
      (∀ k ≤ fuel, P ((m.world.begin i).complete k)) ∧ (m.after i fuel).Admits P rest

instance Admits.decidable (P : Run V → Prop) [DecidablePred P] :
    (m : Run V) → (l : List (Instruction V × Nat)) → Decidable (m.Admits P l)
  | _, [] => instDecidableTrue
  | m, (i, fuel) :: rest =>
    have := Admits.decidable P (m.after i fuel) rest
    inferInstanceAs (Decidable (_ ∧ _ ∧ _ ∧ _))

theorem Reaches.following {P : Run V → Prop} {m n : Run V} (h : Reaches P m n)
    (l : List (Instruction V × Nat)) (hl : n.Admits P l) : Reaches P m (n.following l) := by
  induction l generalizing n with
  | nil => exact h
  | cons x rest ih =>
    obtain ⟨ho, hphase, hP, hrest⟩ := hl
    exact ih (h.after x.1 x.2 ho hphase hP) hrest

def tell (t : ThreadId) (fuel : Nat) (ops : List (Op V)) : List (Instruction V × Nat) :=
  ops.map fun op => (⟨t, .perform op⟩, fuel)

instance (m : Run V) : Decidable m.IsCalm :=
  match h : m.control with
  | .unwind p => isFalse fun hm => hm p h
  | .perform _ | .resume | .answer _ | .parked | .dangling _ =>
    isTrue fun p hp => by simp [h] at hp

end Reclaim.Run
