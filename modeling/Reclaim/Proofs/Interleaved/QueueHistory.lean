import Mathlib.Data.List.Basic
import Reclaim.Interleaved.Queue

set_option autoImplicit false

namespace Reclaim.Interleaved
variable {V : Type} {t u : ThreadId} {h es : List (QueueEvent V)}

namespace QueueEvent

def offer? : QueueEvent V → Option (ThreadId × Address × V)
  | begun t (some x) => some (t, x)
  | _ => none

def linked? : QueueEvent V → Option (Address × V)
  | linked a v => some (a, v)
  | _ => none

def removed? : QueueEvent V → Option (Address × V)
  | removed a v => some (a, v)
  | _ => none

def receipt? : QueueEvent V → Option (ThreadId × Address × V)
  | returned t (some x) => some (t, x)
  | _ => none

def begins (t : ThreadId) : QueueEvent V → Bool
  | begun u _ => u == t
  | _ => false

def isInner (e : QueueEvent V) : Prop := e.offer? = none ∧ e.receipt? = none ∧ ∀ t, ¬ e.begins t

end QueueEvent

def told {α : Type} (f : QueueEvent V → Option α) (h : List (QueueEvent V)) : List α :=
  (h.filterMap f).reverse

theorem told_append {α : Type} (f : QueueEvent V → Option α) (es h : List (QueueEvent V)) :
    told f (es ++ h) = told f h ++ told f es := by
  rw [told, List.filterMap_append, List.reverse_append, told, told]

theorem told_cons {α : Type} (f : QueueEvent V → Option α) (e : QueueEvent V)
    (h : List (QueueEvent V)) : told f (e :: h) = told f h ++ (f e).toList := by
  rw [← List.singleton_append, told_append]
  congr 1
  cases hf : f e <;> simp [told, hf]

theorem told_append_of_nil {α : Type} {f : QueueEvent V → Option α} (hes : told f es = []) :
    told f (es ++ h) = told f h := by
  rw [told_append, hes, List.append_nil]

theorem told_cons_of_none {α : Type} {f : QueueEvent V → Option α} {e : QueueEvent V}
    (he : f e = none) : told f (e :: h) = told f h := by
  rw [told_cons, he, Option.toList_none, List.append_nil]

theorem told_eq_nil {α : Type} {f : QueueEvent V → Option α} (hes : ∀ e ∈ es, f e = none) :
    told f es = [] := by
  rw [told, List.filterMap_eq_nil_iff.2 hes, List.reverse_nil]

def offers (h : List (QueueEvent V)) : List (ThreadId × Address × V) := told QueueEvent.offer? h

def links (h : List (QueueEvent V)) : List (Address × V) := told QueueEvent.linked? h

def removals (h : List (QueueEvent V)) : List (Address × V) := told QueueEvent.removed? h

def receipts (h : List (QueueEvent V)) : List (ThreadId × Address × V) := told QueueEvent.receipt? h

theorem links_append (es h : List (QueueEvent V)) : links (es ++ h) = links h ++ links es :=
  told_append ..

theorem links_append_of_nil (hes : links es = []) : links (es ++ h) = links h :=
  told_append_of_nil hes

theorem removals_append (es h : List (QueueEvent V)) :
    removals (es ++ h) = removals h ++ removals es :=
  told_append ..

def ofThread (t : ThreadId) (l : List (ThreadId × Address × V)) : List (Address × V) :=
  (l.filter fun x => x.1 = t).map (·.2)

def offersBy (t : ThreadId) (h : List (QueueEvent V)) : List (Address × V) := ofThread t (offers h)

def receiptsBy (t : ThreadId) (h : List (QueueEvent V)) : List (Address × V) :=
  ofThread t (receipts h)

def offeredBy (t : ThreadId) (h : List (QueueEvent V)) (l : List (Address × V)) :
    List (Address × V) :=
  l.filter fun x => x.1 ∈ (offersBy t h).map (·.1)

/-- The events since a thread began its last operation. -/
def during (t : ThreadId) (h : List (QueueEvent V)) : List (QueueEvent V) :=
  h.takeWhile fun e => !e.begins t

def before (t : ThreadId) (h : List (QueueEvent V)) : List (QueueEvent V) :=
  h.dropWhile fun e => !e.begins t

theorem mem_ofThread {l : List (ThreadId × Address × V)} {x : Address × V} :
    x ∈ ofThread t l ↔ (t, x) ∈ l := by
  simp only [ofThread, List.mem_map, List.mem_filter, decide_eq_true_eq]
  constructor
  · rintro ⟨⟨u, y⟩, ⟨hy, rfl⟩, rfl⟩
    exact hy
  · exact fun hx => ⟨(t, x), ⟨hx, rfl⟩, rfl⟩

theorem ofThread_append (l l' : List (ThreadId × Address × V)) :
    ofThread t (l ++ l') = ofThread t l ++ ofThread t l' := by
  rw [ofThread, List.filter_append, List.map_append, ofThread, ofThread]

theorem ofThread_self (x : Address × V) : ofThread t [(t, x)] = [x] := by
  simp [ofThread]

theorem ofThread_of_ne (htu : u ≠ t) (x : Address × V) : ofThread t [(u, x)] = [] := by
  simp [ofThread, htu]

theorem mem_offersBy {x : Address × V} : x ∈ offersBy t h ↔ (t, x) ∈ offers h := mem_ofThread

theorem during_append (hes : ∀ e ∈ es, ¬ e.begins t) : during t (es ++ h) = es ++ during t h :=
  List.takeWhile_append_of_pos fun e he => by simpa using hes e he

theorem before_append (hes : ∀ e ∈ es, ¬ e.begins t) : before t (es ++ h) = before t h :=
  List.dropWhile_append_of_pos fun e he => by simpa using hes e he

theorem before_begun (x : Option (Address × V)) :
    before t (.begun t x :: h) = .begun t x :: h := by
  simp [before, QueueEvent.begins]

theorem during_append_before : during t h ++ before t h = h := List.takeWhile_append_dropWhile

/-- What was removed up to the last beginning of an operation was removed first. -/
theorem removals_eq (t : ThreadId) (h : List (QueueEvent V)) :
    removals h = removals (before t h) ++ removals (during t h) := by
  conv_lhs => rw [← during_append_before (t := t) (h := h)]
  exact told_append ..

theorem mem_removals_during {x : Address × V} (hes : ∀ e ∈ es, ¬ e.begins t)
    (hx : x ∈ removals (during t h)) : x ∈ removals (during t (es ++ h)) := by
  rw [during_append hes, removals_append]
  exact List.mem_append_left _ hx

theorem mem_removals_during_new {x : Address × V} (hes : ∀ e ∈ es, ¬ e.begins t)
    (hx : x ∈ removals es) : x ∈ removals (during t (es ++ h)) := by
  rw [during_append hes, removals_append]
  exact List.mem_append_right _ hx

theorem offers_append_of_inner (hes : ∀ e ∈ es, e.isInner) : offers (es ++ h) = offers h :=
  told_append_of_nil (told_eq_nil fun e he => (hes e he).1)

theorem receipts_append_of_inner (hes : ∀ e ∈ es, e.isInner) :
    receipts (es ++ h) = receipts h :=
  told_append_of_nil (told_eq_nil fun e he => (hes e he).2.1)

end Reclaim.Interleaved
