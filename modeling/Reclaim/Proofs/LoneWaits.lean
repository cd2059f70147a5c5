import Reclaim.Waiter

/-!
A consumer that nobody but itself can wake up. Its polls may run destructors that notify it. As long
as every poll that finds nothing does, the consumer never parks: the notification moves on the epoch
that was read before the poll (`Waiter.Reached.waitFor_alone`).
-/

set_option autoImplicit false

namespace Reclaim
variable {V : Type}

namespace Poll

/-- The polls at the beginning of a script that find nothing. -/
def vain (script : List (Poll V)) : List (Poll V) :=
  script.takeWhile fun p => p.value.isNone

/-- How many polls a wait takes that does not park. -/
def needed (script : List (Poll V)) : Nat :=
  (vain script).length + 1

def notified : List (Poll V) → Nat
  | [] => 0
  | p :: rest => p.notifications + notified rest

theorem vain_of_some {p : Poll V} {v : V} (hp : p.value = some v) (rest : List (Poll V)) :
    vain (p :: rest) = [] :=
  List.takeWhile_cons_of_neg (by simp [hp])

theorem vain_of_none {p : Poll V} (hp : p.value = none) (rest : List (Poll V)) :
    vain (p :: rest) = p :: vain rest :=
  List.takeWhile_cons_of_pos (by simp [hp])

end Poll

namespace Waiter

/-- The states between waits. -/
inductive Reached : Waiter → Prop where
  | initial : Reached {}
  | notify {w : Waiter} : Reached w → Reached w.notify
  | waited {V : Type} {w w' : Waiter} {helped : Bool} {script : List (Poll V)} {v : Option V}
      {polls : Nat} : Reached w → w.waitFor helped script = .ended v polls w' → Reached w'

def heard (w : Waiter) (polls : List (Poll V)) : Waiter :=
  polls.foldl (fun w p => w.notifyTimes p.notifications) w

theorem sleepers_notify (w : Waiter) : w.notify.sleepers = w.sleepers := by
  unfold notify
  split <;> rfl

theorem sleepers_notifyTimes (w : Waiter) (k : Nat) :
    (w.notifyTimes k).sleepers = w.sleepers := by
  induction k generalizing w with
  | zero => rfl
  | succ k ih => exact (ih w.notify).trans w.sleepers_notify

theorem notifyTimes_of_pos {w : Waiter} (hw : 0 < w.sleepers) (k : Nat) :
    w.notifyTimes k = { w with epoch := w.epoch + UInt64.ofNat k } := by
  induction k generalizing w with
  | zero => simp [notifyTimes]
  | succ k ih =>
    have hnotify : w.notify = { w with epoch := w.epoch + 1 } := if_pos hw
    have hnext : 0 < w.notify.sleepers := by rwa [sleepers_notify]
    rw [notifyTimes, ih hnext, hnotify, UInt64.ofNat_add, UInt64.add_assoc,
      UInt64.add_comm (UInt64.ofNat k)]
    rfl

theorem heard_of_pos {w : Waiter} (hw : 0 < w.sleepers) (polls : List (Poll V)) :
    w.heard polls = { w with epoch := w.epoch + UInt64.ofNat (Poll.notified polls) } := by
  induction polls generalizing w with
  | nil => simp [heard, Poll.notified]
  | cons p rest ih =>
    have hp : 0 < (w.notifyTimes p.notifications).sleepers := by rwa [sleepers_notifyTimes]
    change (w.notifyTimes p.notifications).heard rest = _
    rw [ih hp, notifyTimes_of_pos hw, Poll.notified, UInt64.ofNat_add, ← UInt64.add_assoc]

/-- Less than a whole round of notifications leads to another epoch. -/
theorem epoch_notifyTimes_ne {w : Waiter} {k : Nat} (hw : 0 < w.sleepers) (hk : 1 ≤ k)
    (hlt : k < UInt64.size) : (w.notifyTimes k).epoch ≠ w.epoch := by
  rw [notifyTimes_of_pos hw]
  intro he
  have hzero : UInt64.ofNat k = 0 := UInt64.add_eq_left.1 he
  have hnat : (UInt64.ofNat k).toNat = k := UInt64.toNat_ofNat_of_lt' hlt
  rw [hzero, UInt64.toNat_zero] at hnat
  omega

/-- A wait that ends takes its sleeper away again. -/
theorem sleepers_poll {helped : Bool} {count polls : Nat} {w w' : Waiter}
    {script : List (Poll V)} {v : Option V} (h : poll helped count w script = .ended v polls w') :
    w'.sleepers = w.sleepers - 1 := by
  induction script generalizing count w with
  | nil =>
    obtain ⟨-, -, rfl⟩ := Wait.ended.inj h
    rfl
  | cons p rest ih =>
    rw [← w.sleepers_notifyTimes p.notifications]
    unfold poll at h
    dsimp only at h
    split at h
    · obtain ⟨-, -, rfl⟩ := Wait.ended.inj h
      rfl
    · split at h
      · exact ih h
      · split at h
        · rw [← sleepers_notify (w.notifyTimes _)]
          exact ih h
        · cases h

theorem leave_enter (w : Waiter) : w.enter.leave = w := by
  simp [enter, leave]

theorem Reached.sleepers {w : Waiter} (h : w.Reached) : w.sleepers = 0 := by
  induction h with
  | initial => rfl
  | notify _ ih => rw [sleepers_notify, ih]
  | @waited _ w _ _ _ _ _ _ hwait ih =>
    have hleft : w.enter.leave.sleepers = w.sleepers := by rw [leave_enter]
    exact (sleepers_poll hwait).trans (hleft.trans ih)

/-- A poll in vain that has notified is followed by the next one. -/
theorem poll_of_vain {helped : Bool} {count : Nat} {w : Waiter} {p : Poll V}
    (rest : List (Poll V)) (hp : p.value = none) (hw : 0 < w.sleepers)
    (hk : 1 ≤ p.notifications) (hlt : p.notifications < UInt64.size) :
    poll helped count w (p :: rest) =
      poll helped (count + 1) (w.notifyTimes p.notifications) rest := by
  rw [poll]
  simp only [hp]
  exact if_pos (epoch_notifyTimes_ne hw hk hlt)

/-- The consumer polls until there is a value, or until the script is over. -/
theorem poll_alone {helped : Bool} {count : Nat} {w : Waiter} {script : List (Poll V)}
    (hw : 0 < w.sleepers)
    (hloud : ∀ p ∈ Poll.vain script, 1 ≤ p.notifications ∧ p.notifications < UInt64.size) :
    poll helped count w script = .ended (script.findSome? (·.value)) (count + Poll.needed script)
      (w.heard (script.take (Poll.needed script))).leave := by
  induction script generalizing count w with
  | nil => rfl
  | cons p rest ih =>
    cases hp : p.value with
    | some v =>
      have hneeded : Poll.needed (p :: rest) = 1 := by rw [Poll.needed, Poll.vain_of_some hp]; rfl
      rw [poll, hneeded, List.findSome?_cons]
      simp only [hp]
      rfl
    | none =>
      have hvain := Poll.vain_of_none hp rest
      have hneeded : Poll.needed (p :: rest) = Poll.needed rest + 1 := by
        rw [Poll.needed, hvain]
        rfl
      rw [hvain] at hloud
      obtain ⟨hk, hlt⟩ := hloud p List.mem_cons_self
      have hnext : 0 < (w.notifyTimes p.notifications).sleepers := by rwa [sleepers_notifyTimes]
      rw [poll_of_vain rest hp hw hk hlt, hneeded, List.findSome?_cons, hp,
        ih hnext fun q hq => hloud q (List.mem_cons_of_mem p hq), Nat.add_right_comm]
      rfl

/-- A wait whose polls in vain all notify is over after the first poll with a value, whether another
thread would help it or not. The epoch is then as many notifications further as there were in its
polls, and the sleepers are as many as before. Each poll in vain has left another epoch than it
found, so that the consumer does not park. When nobody waits, notifications do nothing. -/
theorem Reached.waitFor_alone {w : Waiter} (h : w.Reached) {script : List (Poll V)}
    (hloud : ∀ p ∈ Poll.vain script, 1 ≤ p.notifications ∧ p.notifications < UInt64.size)
    (helped : Bool) :
    w.waitFor helped script = .ended (script.findSome? (·.value)) (Poll.needed script)
      { w with epoch :=
          w.epoch + UInt64.ofNat (Poll.notified (script.take (Poll.needed script))) } ∧
      (∀ earlier p, earlier ++ [p] <+: Poll.vain script →
        (w.enter.heard (earlier ++ [p])).epoch ≠ (w.enter.heard earlier).epoch) ∧
      w.notify = w := by
  have henter : 0 < w.enter.sleepers := by
    simp only [enter, h.sleepers]
    decide
  refine ⟨?_, fun earlier p hearlier => ?_, ?_⟩
  · rw [waitFor, poll_alone henter hloud, Nat.zero_add, heard_of_pos henter]
    simp [enter, leave]
  · obtain ⟨hk, hlt⟩ := hloud p (hearlier.subset (by simp))
    have hpos : 0 < (w.enter.heard earlier).sleepers := by rwa [heard_of_pos henter]
    rw [heard, List.foldl_append]
    exact epoch_notifyTimes_ne hpos hk hlt
  · rw [Waiter.notify, h.sleepers]
    rfl

/-- A wait that was once helped is over, and a notification has found nobody. -/
def rested : Waiter := ⟨0, 1⟩

theorem rested_reached : rested.Reached := by
  have hwait : waitFor {} true [⟨0, none⟩, ⟨0, some 5⟩] = .ended (some 5) 2 rested := rfl
  exact .notify (.waited .initial hwait)

theorem rested_alone :
    rested.Reached ∧
      rested.waitFor false [⟨3, none⟩, ⟨1, none⟩, ⟨2, some 7⟩, ⟨9, some 8⟩] =
        .ended (some 7) 3 ⟨0, 7⟩ ∧
      rested.notify = rested := by
  have hloud : ∀ p ∈ Poll.vain [⟨3, none⟩, ⟨1, none⟩, ⟨2, some 7⟩, ⟨9, some 8⟩],
      1 ≤ p.notifications ∧ p.notifications < UInt64.size := by decide
  obtain ⟨hwait, -, hnotify⟩ := rested_reached.waitFor_alone hloud false
  exact ⟨rested_reached, hwait, hnotify⟩

end Waiter
end Reclaim
