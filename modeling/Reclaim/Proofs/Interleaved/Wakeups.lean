import Mathlib.Data.List.Infix
import Reclaim.Interleaved.Waiter
import Reclaim.Proofs.TableEntries

/-!
No wakeup is lost. A consumer rests once it has polled in vain and the epoch is still the one it
read before the poll; it has registered by then, so an insertion that comes later finds a sleeper,
moves the epoch on and signals. While anyone rests, every value in the queue belongs to a consumer
that is on its way to its next poll or to a producer that has not finished its notification.
-/

set_option autoImplicit false

namespace Reclaim.Interleaved

namespace Waiting
variable {w : Waiting} {k : Nat}

def epoch? : Waiting → Option UInt64
  | poll e => some e
  | check e => some e
  | parked e => some e
  | woken e => some e
  | _ => none

def isRegistered : Waiting → Bool
  | register => false
  | _ => true

/-- It polls again without anyone's help. -/
def pollsAgain (current : UInt64) : Waiting → Bool
  | register => true
  | readEpoch => true
  | poll _ => true
  | check e => e ≠ current
  | parked _ => false
  | woken e => e ≠ current
  | unregister => false

def rests (current : UInt64) : Waiting → Bool
  | check e => e = current
  | parked _ => true
  | woken e => e = current
  | _ => false

def accessesToPoll : Waiting → Nat
  | register => 2
  | readEpoch => 1
  | check _ => 2
  | woken _ => 2
  | _ => 0

theorem accessesToPoll_le_two (w : Waiting) : w.accessesToPoll ≤ 2 := by
  cases w <;> simp [accessesToPoll]

theorem ne_parked_of_pollsAgain {current : UInt64} (h : w.pollsAgain current = true)
    (e : UInt64) : w ≠ parked e := by
  rintro rfl
  cases h

theorem pollsAgain_or_rests (current : UInt64) (hw : w ≠ unregister) :
    w.pollsAgain current = true ∨ w.rests current = true := by
  cases w with
  | check e => by_cases h : e = current <;> simp [pollsAgain, rests, h]
  | woken e => by_cases h : e = current <;> simp [pollsAgain, rests, h]
  | unregister => exact absurd rfl hw
  | _ => simp [pollsAgain, rests]

theorem isRegistered_of_rests {current : UInt64} (h : w.rests current = true) :
    w.isRegistered = true := by
  cases w <;> first | rfl | cases h

theorem ne_ofNat_succ {e : UInt64} (he : e.toNat ≤ k) (hk : k + 1 < UInt64.size) :
    e ≠ .ofNat (k + 1) := by
  rintro rfl
  rw [UInt64.toNat_ofNat_of_lt' hk] at he
  omega

/-- Whoever polls again still does after the epoch has moved on. -/
theorem pollsAgain_succ (hw : ∀ e ∈ w.epoch?, e.toNat ≤ k) (hk : k + 1 < UInt64.size)
    (h : w.pollsAgain (.ofNat k) = true) : w.pollsAgain (.ofNat (k + 1)) = true := by
  cases w with
  | check e => exact decide_eq_true (ne_ofNat_succ (hw e rfl) hk)
  | woken e => exact decide_eq_true (ne_ofNat_succ (hw e rfl) hk)
  | _ => exact h

/-- Only the parked ones rest right after the epoch has moved on. -/
theorem parked_of_rests_succ (hw : ∀ e ∈ w.epoch?, e.toNat ≤ k) (hk : k + 1 < UInt64.size)
    (h : w.rests (.ofNat (k + 1)) = true) : ∃ e, w = parked e := by
  cases w with
  | check e => exact absurd (of_decide_eq_true h) (ne_ofNat_succ (hw e rfl) hk)
  | woken e => exact absurd (of_decide_eq_true h) (ne_ofNat_succ (hw e rfl) hk)
  | parked e => exact ⟨e, rfl⟩
  | _ => cases h

end Waiting

def WaiterMove.isAccessOf (c : ThreadId) : WaiterMove → Bool
  | consume c' => c' = c
  | _ => false

namespace WaiterState
variable {s s' : WaiterState} {m : WaiterMove} {c p target : ThreadId} {w w' : Waiting} {k : Nat}

def signals (s : WaiterState) : WaiterMove → Bool
  | .notify p _ => s.producers.get? p = some .signal
  | _ => false

def notifications (s : WaiterState) : List WaiterMove → Nat
  | [] => 0
  | m :: ms => (s.signals m).toNat + notifications (s.move m) ms

def stages (s : WaiterState) : List Waiting := s.consumers.values

theorem notifications_append (ms ms' : List WaiterMove) :
    s.notifications (ms ++ ms') = s.notifications ms + (ms.foldl move s).notifications ms' := by
  induction ms generalizing s with
  | nil => simp [notifications]
  | cons m ms ih => rw [List.cons_append, notifications, notifications, ih, List.foldl_cons,
      Nat.add_assoc]

theorem countP_setConsumer (hc : s.consumers.get? c = some w) (w' : Waiting) (p : Waiting → Bool) :
    (s.setConsumer c w').stages.countP p + (p w).toNat = s.stages.countP p + (p w').toNat := by
  have hold := (Table.values_erase hc).countP_eq p
  have hnew := (Table.values_insert s.consumers c w').countP_eq p
  rw [List.countP_cons] at hold hnew
  change (s.consumers.insert c w').values.countP p + _ = s.consumers.values.countP p + _
  rw [hold, hnew]
  cases p w <;> cases p w' <;> simp

theorem countP_erase (hc : s.consumers.get? c = some w) (p : Waiting → Bool) :
    s.stages.countP p = (s.consumers.erase c).values.countP p + (p w).toNat := by
  have hold := (Table.values_erase hc).countP_eq p
  rw [List.countP_cons] at hold
  change s.consumers.values.countP p = _
  rw [hold]
  cases p w <;> rfl

theorem countP_setConsumer_new (hc : s.consumers.get? c = none) (p : Waiting → Bool) :
    (s.setConsumer c w).stages.countP p = s.stages.countP p + (p w).toNat := by
  have hnew := (Table.values_insert_new hc w).countP_eq p
  rw [List.countP_cons] at hnew
  change (s.consumers.insert c w).values.countP p = s.consumers.values.countP p + _
  rw [hnew]
  cases p w <;> rfl

def advance (s : WaiterState) (p : ThreadId) : WaiterState :=
  { s with
    waiter := { s.waiter with epoch := s.waiter.epoch + 1 }
    producers := s.producers.erase p }

/-- What one access of a waiting consumer can do without any effect on others. -/
inductive Turn (s : WaiterState) : Waiting → Waiting → Prop where
  | readEpoch : Turn s .readEpoch (.poll s.waiter.epoch)
  | pollInVain {e : UInt64} : s.values = 0 → Turn s (.poll e) (.check e)
  | park {e : UInt64} : s.waiter.epoch = e → Turn s (.check e) (.parked e)
  | parkAgain {e : UInt64} : s.waiter.epoch = e → Turn s (.woken e) (.parked e)
  | retry {e : UInt64} : s.waiter.epoch ≠ e → Turn s (.check e) .readEpoch
  | retryWoken {e : UInt64} : s.waiter.epoch ≠ e → Turn s (.woken e) .readEpoch

/-- What one move can do. -/
inductive Change (s : WaiterState) : WaiterMove → WaiterState → Prop where
  | still {m : WaiterMove} : s.signals m = false → Change s m s
  | enter {c : ThreadId} :
    s.consumers.get? c = none → Change s (.wait c) (s.setConsumer c .register)
  | register {c : ThreadId} :
    s.consumers.get? c = some .register →
      Change s (.consume c) ({ s with waiter := s.waiter.enter }.setConsumer c .readEpoch)
  | turn {c : ThreadId} {w w' : Waiting} :
    s.consumers.get? c = some w → Turn s w w' → Change s (.consume c) (s.setConsumer c w')
  | take {c : ThreadId} {e : UInt64} :
    s.consumers.get? c = some (.poll e) → 0 < s.values →
      Change s (.consume c) ({ s with values := s.values - 1 }.setConsumer c .unregister)
  | leave {c : ThreadId} :
    s.consumers.get? c = some .unregister →
      Change s (.consume c)
        { s with waiter := s.waiter.leave, consumers := s.consumers.erase c }
  | wake {c : ThreadId} {e : UInt64} :
    s.consumers.get? c = some (.parked e) → Change s (.wake c) (s.setConsumer c (.woken e))
  | insert {p : ThreadId} :
    s.producers.get? p = none →
      Change s (.insert p)
        { s with values := s.values + 1, producers := s.producers.insert p .readSleepers }
  | findSleepers {p target : ThreadId} :
    s.producers.get? p = some .readSleepers →
      Change s (.notify p target) { s with producers := s.producers.insert p .signal }
  | findNone {p target : ThreadId} :
    s.producers.get? p = some .readSleepers → s.waiter.sleepers = 0 →
      Change s (.notify p target) { s with producers := s.producers.erase p }
  | signal {p target c : ThreadId} {e : UInt64} :
    s.producers.get? p = some .signal → s.consumers.get? c = some (.parked e) →
      Change s (.notify p target) ((s.advance p).setConsumer c (.woken e))
  | signalNobody {p target : ThreadId} :
    s.producers.get? p = some .signal → (∀ c e, s.consumers.get? c ≠ some (.parked e)) →
      Change s (.notify p target) (s.advance p)

/-- A signal goes to a parked consumer, if there is one. -/
theorem signal_cases (s : WaiterState) (target : ThreadId) :
    (∃ c e, s.consumers.get? c = some (.parked e) ∧
        s.signal target = s.setConsumer c (.woken e)) ∨
      s.signal target = s ∧ ∀ c e, s.consumers.get? c ≠ some (.parked e) := by
  have hwake : ∀ c, s.isParked c = true → ∃ e, s.consumers.get? c = some (.parked e) ∧
      s.wakeUp c = s.setConsumer c (.woken e) := by
    intro c hc
    unfold isParked at hc
    split at hc
    · rename_i e he
      exact ⟨e, he, by rw [wakeUp, he]⟩
    · cases hc
  unfold signal
  split
  · rename_i hparked
    obtain ⟨e, he, hset⟩ := hwake target hparked
    exact .inl ⟨target, e, he, hset⟩
  · split
    · rename_i c hfind
      obtain ⟨e, he, hset⟩ := hwake c (List.find?_some hfind)
      exact .inl ⟨c, e, he, hset⟩
    · rename_i hnone
      refine .inr ⟨rfl, fun c e he => ?_⟩
      have hkey : c ∈ s.consumers.keys := Table.mem_keys.2 (by rw [he]; rfl)
      exact List.find?_eq_none.1 hnone c hkey (by rw [isParked, he])

theorem turn_recheck (s : WaiterState) (e : UInt64) :
    Turn s (.check e) (.recheck s.waiter e) ∧ Turn s (.woken e) (.recheck s.waiter e) := by
  unfold Waiting.recheck
  split
  · rename_i h
    exact ⟨.park h, .parkAgain h⟩
  · rename_i h
    exact ⟨.retry h, .retryWoken h⟩

theorem change_consume (hc : s.consumers.get? c = some w) :
    s.Change (.consume c) (s.consume c w) := by
  cases w with
  | register => exact .register hc
  | readEpoch => exact .turn hc .readEpoch
  | poll e =>
    rw [consume]
    split
    · rename_i hvalues
      exact .turn hc (.pollInVain hvalues)
    · rename_i hvalues
      exact .take hc (Nat.pos_of_ne_zero hvalues)
  | check e => exact .turn hc (s.turn_recheck e).1
  | parked e => exact .still rfl
  | woken e => exact .turn hc (s.turn_recheck e).2
  | unregister => exact .leave hc

theorem change_notify {n : Notifying} (hp : s.producers.get? p = some n) :
    s.Change (.notify p target) (s.notify p target n) := by
  cases n with
  | readSleepers =>
    rw [notify]
    split
    · exact .findSleepers hp
    · rename_i hnone
      exact .findNone hp (UInt64.le_antisymm (UInt64.not_lt.1 hnone) UInt64.zero_le)
  | signal =>
    change s.Change _ ((s.advance p).signal target)
    obtain ⟨c, e, he, heq⟩ | ⟨heq, hnone⟩ := (s.advance p).signal_cases target
    · rw [heq]
      exact .signal hp he
    · rw [heq]
      exact .signalNobody hp hnone

theorem change_move (s : WaiterState) (m : WaiterMove) : s.Change m (s.move m) := by
  cases m with
  | wait c =>
    cases hc : s.consumers.get? c with
    | none => simpa only [move, hc] using Change.enter hc
    | some w => simpa only [move, hc] using Change.still rfl
  | consume c =>
    cases hc : s.consumers.get? c with
    | none => simpa only [move, hc] using Change.still rfl
    | some w => simpa only [move, hc] using change_consume hc
  | wake c =>
    rw [move, wakeUp]
    split
    · rename_i e he
      exact .wake he
    · exact .still rfl
  | insert p =>
    cases hp : s.producers.get? p with
    | none => simpa only [move, hp] using Change.insert hp
    | some n => simpa only [move, hp] using Change.still rfl
  | notify p target =>
    cases hp : s.producers.get? p with
    | none => simpa only [move, hp] using Change.still (by simp [signals, hp])
    | some n => simpa only [move, hp] using change_notify hp

structure Dated (k : Nat) (s : WaiterState) : Prop where
  epoch : s.waiter.epoch = .ofNat k
  read : ∀ c w, s.consumers.get? c = some w → ∀ e ∈ w.epoch?, e.toNat ≤ k

namespace Dated

theorem initial : ({} : WaiterState).Dated 0 :=
  ⟨rfl, fun c w hc => by rw [Table.get?_empty] at hc; cases hc⟩

theorem setConsumer (h : s.Dated k) (hw : ∀ e ∈ w.epoch?, e.toNat ≤ k) :
    (s.setConsumer c w).Dated k := by
  refine ⟨h.epoch, fun c' w' hc' => ?_⟩
  rw [WaiterState.setConsumer, Table.get?_insert] at hc'
  split at hc'
  · cases hc'
    exact hw
  · exact h.read c' w' hc'

theorem advance (h : s.Dated k) (p : ThreadId) : (s.advance p).Dated (k + 1) where
  epoch := by
    change s.waiter.epoch + 1 = _
    rw [h.epoch, UInt64.ofNat_add]
    rfl
  read c w hc e he := Nat.le_succ_of_le (h.read c w hc e he)

theorem turn (h : s.Dated k) (hc : s.consumers.get? c = some w) (hturn : Turn s w w') :
    ∀ e ∈ w'.epoch?, e.toNat ≤ k := by
  have hread := h.read c w hc
  cases hturn with
  | readEpoch =>
    intro e he
    obtain rfl := Option.some.inj he
    rw [h.epoch, UInt64.toNat_ofNat']
    exact Nat.mod_le ..
  | pollInVain => exact hread
  | park => exact hread
  | parkAgain => exact hread
  | retry => exact fun e he => nomatch he
  | retryWoken => exact fun e he => nomatch he

theorem change (h : s.Dated k) (hchange : s.Change m s') :
    s'.Dated (k + (s.signals m).toNat) := by
  cases hchange with
  | still hsignals => rwa [hsignals]
  | enter => exact h.setConsumer fun e he => nomatch he
  | register => exact setConsumer ⟨h.epoch, h.read⟩ fun e he => nomatch he
  | turn hc hturn => exact h.setConsumer (h.turn hc hturn)
  | take => exact setConsumer ⟨h.epoch, h.read⟩ fun e he => nomatch he
  | leave =>
    refine ⟨h.epoch, fun c' w' hc' => ?_⟩
    rw [Table.get?_erase] at hc'
    split at hc'
    · cases hc'
    · exact h.read c' w' hc'
  | @wake c e hc => exact h.setConsumer (w := .woken e) fun e' he' => h.read c _ hc e' he'
  | insert => exact ⟨h.epoch, h.read⟩
  | findSleepers hp =>
    rw [signals, hp]
    exact ⟨h.epoch, h.read⟩
  | findNone hp =>
    rw [signals, hp]
    exact ⟨h.epoch, h.read⟩
  | signal hp hc =>
    rw [signals, hp]
    exact (h.advance _).setConsumer fun e he => Nat.le_succ_of_le (h.read _ _ hc e he)
  | signalNobody hp =>
    rw [signals, hp]
    exact h.advance _

theorem foldl (h : s.Dated k) (ms : List WaiterMove) :
    (ms.foldl move s).Dated (k + s.notifications ms) := by
  induction ms generalizing s k with
  | nil => exact h
  | cons m ms ih =>
    rw [List.foldl_cons, notifications, ← Nat.add_assoc]
    exact ih (h.change (s.change_move m))

end Dated

def Counted (s : WaiterState) : Prop :=
  s.waiter.sleepers = .ofNat (s.stages.countP Waiting.isRegistered)

namespace Counted

theorem initial : ({} : WaiterState).Counted := by
  rw [Counted, stages, Table.values_empty]
  rfl

theorem setConsumer (h : s.Counted) (hc : s.consumers.get? c = some w)
    (hw : w'.isRegistered = w.isRegistered) : (s.setConsumer c w').Counted := by
  have hcount := countP_setConsumer hc w' Waiting.isRegistered
  rw [hw] at hcount
  exact h.trans (congrArg UInt64.ofNat (Nat.add_right_cancel hcount)).symm

theorem change (h : s.Counted) (hchange : s.Change m s') : s'.Counted := by
  cases hchange with
  | still => exact h
  | enter hc =>
    have hcount := countP_setConsumer_new (w := .register) hc Waiting.isRegistered
    exact h.trans (congrArg UInt64.ofNat hcount).symm
  | @register c hc =>
    have hcount := countP_setConsumer hc .readEpoch Waiting.isRegistered
    calc
      s.waiter.sleepers + 1 = .ofNat (s.stages.countP Waiting.isRegistered + 1) := by
        rw [h, UInt64.ofNat_add]
        rfl
      _ = .ofNat ((s.setConsumer c .readEpoch).stages.countP Waiting.isRegistered) :=
        congrArg UInt64.ofNat hcount.symm
  | turn hc hturn => exact h.setConsumer hc (by cases hturn <;> rfl)
  | take hc => exact setConsumer (s := { s with values := s.values - 1 }) h hc rfl
  | @leave c hc =>
    have hcount := countP_erase hc Waiting.isRegistered
    calc
      s.waiter.sleepers - 1 =
          .ofNat ((s.consumers.erase c).values.countP Waiting.isRegistered + 1) - 1 := by
        rw [h, hcount]
        rfl
      _ = .ofNat ((s.consumers.erase c).values.countP Waiting.isRegistered) := by
        rw [UInt64.ofNat_add]
        exact UInt64.add_sub_cancel ..
  | wake hc => exact h.setConsumer hc rfl
  | insert => exact h
  | findSleepers => exact h
  | findNone => exact h
  | @signal p _ _ _ _ hc => exact setConsumer (s := s.advance p) h hc rfl
  | signalNobody => exact h

end Counted

/-- How many consumers poll again without anyone's help. -/
def awake (s : WaiterState) : Nat := s.stages.countP (·.pollsAgain s.waiter.epoch)

theorem awake_setConsumer (hc : s.consumers.get? c = some w) (w' : Waiting) :
    (s.setConsumer c w').awake + (w.pollsAgain s.waiter.epoch).toNat =
      s.awake + (w'.pollsAgain s.waiter.epoch).toNat :=
  countP_setConsumer hc w' _

/-- While a consumer rests, every value is somebody's: a consumer polls again, or a producer is not
done yet. -/
def Covered (s : WaiterState) : Prop :=
  ∀ c w, s.consumers.get? c = some w → w.rests s.waiter.epoch = true →
    s.values ≤ s.awake + s.producers.size

namespace Covered

theorem initial : ({} : WaiterState).Covered := fun _ _ _ _ => Nat.zero_le _

/-- A consumer that goes on covers as many values as before. -/
theorem setConsumer (h : s.Covered) (hc : s.consumers.get? c = some w)
    (hrests : w'.rests s.waiter.epoch = true → w.rests s.waiter.epoch = true)
    (hpolls : w.pollsAgain s.waiter.epoch = true → w'.pollsAgain s.waiter.epoch = true) :
    (s.setConsumer c w').Covered := by
  intro c' v hv hvrests
  have hold : s.values ≤ s.awake + s.producers.size := by
    rw [WaiterState.setConsumer, Table.get?_insert] at hv
    split at hv
    · obtain rfl := Option.some.inj hv
      exact h c w hc (hrests hvrests)
    · exact h c' v hv hvrests
  have hcount := awake_setConsumer hc w'
  have hmono : (w.pollsAgain s.waiter.epoch).toNat ≤ (w'.pollsAgain s.waiter.epoch).toNat := by
    cases hw : w.pollsAgain s.waiter.epoch with
    | false => exact Nat.zero_le _
    | true => exact Nat.le_of_eq (congrArg Bool.toNat (hpolls hw).symm)
  change s.values ≤ (s.setConsumer c w').awake + s.producers.size
  omega

theorem turn (h : s.Covered) (hc : s.consumers.get? c = some w) (hturn : Turn s w w') :
    (s.setConsumer c w').Covered := by
  cases hturn with
  | pollInVain hvalues => exact fun _ _ _ _ => hvalues ▸ Nat.zero_le _
  | readEpoch => exact h.setConsumer hc (fun hw => nomatch hw) fun _ => rfl
  | park he =>
    exact h.setConsumer hc (fun _ => decide_eq_true he.symm)
      fun hw => absurd he.symm (of_decide_eq_true hw)
  | parkAgain he =>
    exact h.setConsumer hc (fun _ => decide_eq_true he.symm)
      fun hw => absurd he.symm (of_decide_eq_true hw)
  | retry => exact h.setConsumer hc (fun hw => nomatch hw) fun _ => rfl
  | retryWoken => exact h.setConsumer hc (fun hw => nomatch hw) fun _ => rfl

/-- Nobody rests that has not registered. -/
theorem not_rests_of_sleepers (hcounted : s.Counted) (hsize : s.consumers.size < UInt64.size)
    (hnone : s.waiter.sleepers = 0) (hc : s.consumers.get? c = some w) :
    w.rests s.waiter.epoch = false := by
  have hle : s.stages.countP Waiting.isRegistered ≤ s.consumers.size :=
    le_of_le_of_eq List.countP_le_length (Table.length_values _)
  have hzero : s.stages.countP Waiting.isRegistered = 0 := by
    have h := congrArg UInt64.toNat (hcounted.symm.trans hnone)
    rwa [UInt64.toNat_ofNat_of_lt' (Nat.lt_of_le_of_lt hle hsize)] at h
  have hnot := List.countP_eq_zero.1 hzero w (Table.mem_values.2 ⟨c, hc⟩)
  exact Bool.eq_false_iff.2 fun hrests => hnot (Waiting.isRegistered_of_rests hrests)

/-- After a signal one more consumer polls again, and one producer less is at work. -/
theorem signal (h : s.Covered) (hd : s.Dated k) (hk : k + 1 < UInt64.size) {n : Notifying}
    {e : UInt64} (hp : s.producers.get? p = some n)
    (hc : s.consumers.get? c = some (.parked e)) :
    ((s.advance p).setConsumer c (.woken e)).Covered := by
  intro _ _ _ _
  have hsome : s.values ≤ s.awake + s.producers.size := h c _ hc rfl
  have hsize := Table.size_erase hp
  have hmono : s.awake ≤ (s.advance p).awake := by
    refine List.countP_mono_left fun w hw hpolls => ?_
    obtain ⟨c', hc'⟩ := Table.mem_values.1 hw
    rw [hd.epoch] at hpolls
    rw [(hd.advance p).epoch]
    exact Waiting.pollsAgain_succ (hd.read c' w hc') hk hpolls
  have hcount := awake_setConsumer (s := s.advance p) hc (.woken e)
  have hwoken : (Waiting.woken e).pollsAgain (s.advance p).waiter.epoch = true := by
    rw [(hd.advance p).epoch]
    exact decide_eq_true (Waiting.ne_ofNat_succ (hd.read c _ hc e rfl) hk)
  rw [hwoken] at hcount
  change s.values ≤ ((s.advance p).setConsumer c (.woken e)).awake + (s.producers.erase p).size
  change _ + 0 = _ + 1 at hcount
  omega

theorem change (h : s.Covered) (hd : s.Dated k) (hk : k + (s.signals m).toNat < UInt64.size)
    (hcounted : s.Counted) (hsize : s.consumers.size < UInt64.size) (hchange : s.Change m s') :
    s'.Covered := by
  cases hchange with
  | still => exact h
  | enter hc =>
    intro c' w hw hrests
    rw [WaiterState.setConsumer, Table.get?_insert] at hw
    split at hw
    · cases hw
      cases hrests
    · have hcount := countP_setConsumer_new (w := .register) hc (·.pollsAgain s.waiter.epoch)
      have hold := h c' w hw hrests
      change s.values ≤ (s.setConsumer _ .register).awake + s.producers.size
      change (s.setConsumer _ .register).awake = s.awake + 1 at hcount
      omega
  | register hc =>
    exact setConsumer (s := { s with waiter := s.waiter.enter }) h hc (fun hw => nomatch hw)
      fun _ => rfl
  | turn hc hturn => exact h.turn hc hturn
  | @take c e hc hpos =>
    intro c' w hw hrests
    rw [WaiterState.setConsumer, Table.get?_insert] at hw
    split at hw
    · cases hw
      cases hrests
    · have hcount := awake_setConsumer hc .unregister
      have hold := h c' w hw hrests
      change s.values - 1 ≤ (s.setConsumer c .unregister).awake + s.producers.size
      change _ + 1 = _ + 0 at hcount
      omega
  | @leave c hc =>
    intro c' w hw hrests
    rw [Table.get?_erase] at hw
    split at hw
    · cases hw
    · have hcount := countP_erase hc (·.pollsAgain s.waiter.epoch)
      exact le_of_le_of_eq (h c' w hw hrests) (congrArg (· + s.producers.size) hcount)
  | wake hc => exact h.setConsumer hc (fun _ => rfl) fun hw => nomatch hw
  | insert hp =>
    intro c w hc hrests
    have hold := h c w hc hrests
    have hsize := Table.size_insert_new hp .readSleepers
    change s.values + 1 ≤ s.awake + (s.producers.insert _ _).size
    omega
  | findSleepers hp =>
    intro c w hc hrests
    exact le_of_le_of_eq (h c w hc hrests)
      (congrArg (s.awake + ·) (Table.size_insert hp _).symm)
  | findNone _ hnone =>
    intro c w hc hrests
    rw [not_rests_of_sleepers hcounted hsize hnone hc] at hrests
    cases hrests
  | signal hp hc =>
    rw [signals, hp] at hk
    exact h.signal hd hk hp hc
  | signalNobody hp hnone =>
    intro c w hc hrests
    rw [signals, hp] at hk
    rw [(hd.advance _).epoch] at hrests
    obtain ⟨e, rfl⟩ := Waiting.parked_of_rests_succ (hd.read c w hc) hk hrests
    exact absurd hc (hnone c e)

theorem foldl {ms : List WaiterMove} (h : s.Covered) (hd : s.Dated k) (hcounted : s.Counted)
    (hk : k + s.notifications ms < UInt64.size)
    (hsize : ∀ l, l <+: ms → (l.foldl move s).consumers.size < UInt64.size) :
    (ms.foldl move s).Covered := by
  induction ms generalizing s k with
  | nil => exact h
  | cons m ms ih =>
    rw [notifications, ← Nat.add_assoc] at hk
    have hm := s.change_move m
    have hnext := h.change hd (Nat.lt_of_le_of_lt (Nat.le_add_right ..) hk) hcounted
      (hsize [] List.nil_prefix) hm
    exact ih hnext (hd.change hm) (hcounted.change hm) hk
      fun l hl => hsize (m :: l) (List.cons_prefix_cons.2 ⟨rfl, hl⟩)

end Covered

/-- A move that is not its own access leaves a consumer where it is, unless it is parked. -/
theorem get?_move_of_not_access (hm : m.isAccessOf c = false) (hc : s.consumers.get? c = some w)
    (hw : ∀ e, w ≠ .parked e) : (s.move m).consumers.get? c = some w := by
  have hother : ∀ {c' : ThreadId} {v : Waiting}, c ≠ c' →
      (s.consumers.insert c' v).get? c = some w := fun hne => by
    rwa [Table.get?_insert_of_ne hne]
  have hasleep : ∀ {c' : ThreadId} {e : UInt64}, s.consumers.get? c' = some (.parked e) →
      c ≠ c' := by
    rintro c' e hc' rfl
    exact hw e (Option.some.inj (hc.symm.trans hc'))
  have hnot : ∀ {c' : ThreadId}, (WaiterMove.consume c').isAccessOf c = false → c ≠ c' :=
    fun h heq => of_decide_eq_false h heq.symm
  generalize hs' : s.move m = s'
  have hchange := s.change_move m
  rw [hs'] at hchange
  cases hchange with
  | still => exact hc
  | enter hc' =>
    refine hother ?_
    rintro rfl
    rw [hc] at hc'
    cases hc'
  | register => exact hother (hnot hm)
  | turn => exact hother (hnot hm)
  | take => exact hother (hnot hm)
  | leave => exact (Table.get?_erase_of_ne (hnot hm)).trans hc
  | wake hc' => exact hother (hasleep hc')
  | insert => exact hc
  | findSleepers => exact hc
  | findNone => exact hc
  | signal _ hc' => exact hother (hasleep hc')
  | signalNobody => exact hc

/-- A consumer polls after `n` more accesses of its own. -/
def Due (s : WaiterState) (c : ThreadId) (n : Nat) : Prop :=
  ∃ w, s.consumers.get? c = some w ∧ w.pollsAgain s.waiter.epoch = true ∧ w.accessesToPoll = n

namespace Due
variable {n : Nat}

theorem other (h : s.Due c n) (hd : s.Dated k) (hk : k + (s.signals m).toNat < UInt64.size)
    (hm : m.isAccessOf c = false) : (s.move m).Due c n := by
  obtain ⟨w, hc, hpolls, hn⟩ := h
  refine ⟨w, get?_move_of_not_access hm hc (Waiting.ne_parked_of_pollsAgain hpolls), ?_, hn⟩
  rw [hd.epoch] at hpolls
  rw [(hd.change (s.change_move m)).epoch]
  cases hsignals : s.signals m with
  | false => exact hpolls
  | true =>
    rw [hsignals] at hk
    exact Waiting.pollsAgain_succ (hd.read c w hc) hk hpolls

theorem access (h : s.Due c (n + 1)) : (s.move (.consume c)).Due c n := by
  obtain ⟨w, hc, hpolls, hn⟩ := h
  have hmove : s.move (.consume c) = s.consume c w := by simp only [move, hc]
  have hretry : ∀ e, e ≠ s.waiter.epoch → Waiting.recheck s.waiter e = .readEpoch :=
    fun e he => if_neg (Ne.symm he)
  rw [hmove]
  cases w with
  | register =>
    cases hn
    exact ⟨_, Table.get?_insert_self .., rfl, rfl⟩
  | readEpoch =>
    cases hn
    exact ⟨_, Table.get?_insert_self .., rfl, rfl⟩
  | poll e => cases hn
  | check e =>
    cases hn
    rw [consume, hretry e (of_decide_eq_true hpolls)]
    exact ⟨_, Table.get?_insert_self .., rfl, rfl⟩
  | parked e => cases hn
  | woken e =>
    cases hn
    rw [consume, hretry e (of_decide_eq_true hpolls)]
    exact ⟨_, Table.get?_insert_self .., rfl, rfl⟩
  | unregister => cases hn

theorem foldl {ms : List WaiterMove} (h : s.Due c n) (hd : s.Dated k)
    (hk : k + s.notifications ms < UInt64.size) (hn : ms.countP (·.isAccessOf c) = n) :
    (ms.foldl move s).Due c 0 := by
  induction ms generalizing s k n with
  | nil =>
    obtain rfl : 0 = n := hn
    exact h
  | cons m ms ih =>
    rw [notifications, ← Nat.add_assoc] at hk
    rw [List.countP_cons] at hn
    have hnext := hd.change (s.change_move m)
    cases hm : m.isAccessOf c with
    | false =>
      rw [hm] at hn
      exact ih (h.other hd (Nat.lt_of_le_of_lt (Nat.le_add_right ..) hk) hm) hnext hk hn
    | true =>
      rw [hm] at hn
      subst hn
      cases m with
      | consume c' =>
        obtain rfl : c' = c := of_decide_eq_true hm
        exact ih h.access hnext hk rfl
      | _ => cases hm

theorem exists_poll (h : s.Due c 0) : ∃ e, s.consumers.get? c = some (.poll e) := by
  obtain ⟨w, hc, hpolls, hn⟩ := h
  cases w with
  | poll e => exact ⟨e, hc⟩
  | parked => cases hpolls
  | unregister => cases hpolls
  | _ => cases hn

end Due

/-- Beside a consumer that still waits for a value that is there, one polls again. -/
theorem Covered.exists_pollsAgain (h : s.Covered) (hvalue : 0 < s.values)
    (hdone : ∀ p, s.producers.get? p = none) (hc : s.consumers.get? c = some w)
    (hw : w ≠ .unregister) :
    ∃ c' w', s.consumers.get? c' = some w' ∧ w'.pollsAgain s.waiter.epoch = true := by
  obtain hpolls | hrests := Waiting.pollsAgain_or_rests s.waiter.epoch hw
  · exact ⟨c, w, hc, hpolls⟩
  have hempty : s.producers.size = 0 := by
    rw [← Table.length_values, List.length_eq_zero_iff, List.eq_nil_iff_forall_not_mem]
    intro n hn
    obtain ⟨p, hp⟩ := Table.mem_values.1 hn
    cases (hdone p).symm.trans hp
  have hawake : 0 < s.awake := by
    have hcovered := h c w hc hrests
    omega
  obtain ⟨w', hw', hpolls⟩ := List.countP_pos_iff.1 hawake
  obtain ⟨c', hc'⟩ := Table.mem_values.1 hw'
  exact ⟨c', w', hc', hpolls⟩

/-- No wakeup is lost. When there is a value and every producer has finished its notification, a
consumer that still waits for a value does so beside one that is not parked and polls again: after
at most two accesses of its own, whatever the others do meanwhile. The two words of the waiter must
not overflow, so the epoch moves on fewer than `UInt64.size` times, and there are never as many as
`UInt64.size` consumers at once. -/
theorem not_all_parked {ms : List WaiterMove} (hnotes : notifications {} ms < UInt64.size)
    (hsize : ∀ l, l <+: ms → (l.foldl move {}).consumers.size < UInt64.size)
    (hvalue : 0 < (ms.foldl move {}).values)
    (hdone : ∀ p, (ms.foldl move {}).producers.get? p = none) :
    ((∀ c, (ms.foldl move {}).consumers.get? c = none) ∨
        ∃ c w, (ms.foldl move {}).consumers.get? c = some w ∧ ∀ e, w ≠ .parked e) ∧
      ∀ c w, (ms.foldl move {}).consumers.get? c = some w → w ≠ .unregister →
        ∃ c' w', (ms.foldl move {}).consumers.get? c' = some w' ∧ (∀ e, w' ≠ .parked e) ∧
          w'.accessesToPoll ≤ 2 ∧
          ∀ ms', notifications {} (ms ++ ms') < UInt64.size →
            ms'.countP (·.isAccessOf c') = w'.accessesToPoll →
              ∃ e, ((ms ++ ms').foldl move {}).consumers.get? c' = some (.poll e) := by
  have hd : (ms.foldl move {}).Dated (notifications {} ms) := by
    simpa only [Nat.zero_add] using Dated.initial.foldl ms
  have hcovered := Covered.initial.foldl Dated.initial Counted.initial
    (by rwa [Nat.zero_add]) hsize
  refine ⟨?_, fun c w hc hw => ?_⟩
  · by_cases hnone : ∀ c, (ms.foldl move {}).consumers.get? c = none
    · exact .inl hnone
    · obtain ⟨c, hc⟩ := not_forall.1 hnone
      obtain ⟨w, hw⟩ := Option.ne_none_iff_exists'.1 hc
      by_cases hleaves : w = .unregister
      · exact .inr ⟨c, w, hw, fun e => hleaves ▸ Waiting.noConfusion⟩
      · obtain ⟨c', w', hc', hpolls⟩ := hcovered.exists_pollsAgain hvalue hdone hw hleaves
        exact .inr ⟨c', w', hc', Waiting.ne_parked_of_pollsAgain hpolls⟩
  · obtain ⟨c', w', hc', hpolls⟩ := hcovered.exists_pollsAgain hvalue hdone hc hw
    refine ⟨c', w', hc', Waiting.ne_parked_of_pollsAgain hpolls, w'.accessesToPoll_le_two,
      fun ms' hmore haccesses => ?_⟩
    rw [notifications_append] at hmore
    rw [List.foldl_append]
    exact Due.exists_poll (Due.foldl ⟨w', hc', hpolls, rfl⟩ hd hmore haccesses)

/-- Two consumers park, and an insertion wakes the second one up. -/
def roused : List WaiterMove :=
  [0, 1].flatMap (fun c => .wait c :: List.replicate 4 (.consume c)) ++
    [.insert 2, .notify 2 1, .notify 2 1]

def rousedMore : List WaiterMove := [.consume 1, .wake 0, .consume 0, .consume 1]

theorem roused_polls :
    notifications {} roused = 1 ∧ (∀ l, l <+: roused → (l.foldl move {}).consumers.size ≤ 2) ∧
      (roused.foldl move {}).values = 1 ∧ (roused.foldl move {}).producers.keys = [] ∧
      (roused.foldl move {}).consumers.get? 0 = some (.parked 0) ∧
      ∃ e, ((roused ++ rousedMore).foldl move {}).consumers.get? 1 = some (.poll e) := by
  have hnotes : notifications {} roused = 1 := by decide +kernel
  have hsize : ∀ l, l <+: roused → (l.foldl move {}).consumers.size ≤ 2 := by
    have hall : ∀ l ∈ roused.inits, (l.foldl move {}).consumers.size ≤ 2 := by decide +kernel
    exact fun l hl => hall l ((List.mem_inits ..).2 hl)
  have hvalues : (roused.foldl move {}).values = 1 := by decide +kernel
  have hproducers : (roused.foldl move {}).producers.keys = [] := by decide +kernel
  have hparked : (roused.foldl move {}).consumers.get? 0 = some (.parked 0) := by decide +kernel
  have hwoken : (roused.foldl move {}).consumers.get? 1 = some (.woken 0) := by decide +kernel
  have hdone : ∀ p, (roused.foldl move {}).producers.get? p = none := fun p => by
    rw [← Option.not_isSome_iff_eq_none, ← Table.mem_keys, hproducers]
    exact List.not_mem_nil
  refine ⟨hnotes, hsize, hvalues, hproducers, hparked, ?_⟩
  obtain ⟨c', w', hc', hawake, -, hpoll⟩ := (not_all_parked (hnotes ▸ by decide)
    (fun l hl => Nat.lt_of_le_of_lt (hsize l hl) (by decide)) (hvalues ▸ Nat.one_pos) hdone).2
    0 _ hparked Waiting.noConfusion
  have hmem : c' ∈ (roused.foldl move {}).consumers.keys := Table.mem_keys.2 (hc' ▸ rfl)
  have hkeys : (roused.foldl move {}).consumers.keys = [0, 1] := by decide +kernel
  rw [hkeys] at hmem
  obtain rfl | rfl : c' = 0 ∨ c' = 1 := by simpa using hmem
  · exact absurd (Option.some.inj (hc'.symm.trans hparked)) (hawake 0)
  · obtain rfl := Option.some.inj (hc'.symm.trans hwoken)
    exact hpoll _ (by decide +kernel) rfl

end WaiterState
end Reclaim.Interleaved
