import Reclaim.Proofs.TableEntries
import Reclaim.Queue

set_option autoImplicit false

namespace Reclaim.Nodes
variable {V : Type} {nodes nodes' : Nodes V} {start : Option Address} {a t : Address}
  {l l' : List Address} {n last : Node V}

inductive Path (nodes : Nodes V) : Option Address → List Address → Prop where
  | nil : Path nodes none []
  | cons {a : Address} {n : Node V} {l : List Address} : nodes.get? a = some n →
      Path nodes n.next l → Path nodes (some a) (a :: l)

def value? (nodes : Nodes V) (a : Address) : Option V :=
  (nodes.get? a).bind fun n => n.slot.value?

def trail (nodes : Nodes V) (start : Option Address) : List Address :=
  ((nodes.chainFrom nodes.size start).getD []).map (·.1)

theorem value?_setNext (h : nodes.get? t = some last) (next : Option Address) (b : Address) :
    value? (nodes.insert t { last with next }) b = nodes.value? b := by
  rw [value?, value?, Table.get?_insert]
  split
  · rename_i hb
    rw [hb, h]
    rfl
  · rfl

theorem value?_vacate (nodes : Nodes V) (n : Node V) (a b : Address) :
    value? (nodes.insert a { n with slot := .vacant }) b =
      if b = a then none else nodes.value? b := by
  rw [value?, value?, Table.get?_insert]
  split <;> rfl

theorem value?_erase (nodes : Nodes V) (a b : Address) :
    value? (nodes.erase a) b = if b = a then none else nodes.value? b := by
  rw [value?, value?, Table.get?_erase]
  split <;> rfl

def waiting (nodes : Nodes V) (start : Option Address) : List V :=
  (nodes.trail start).filterMap nodes.value?

namespace Path

theorem unique (h : Path nodes start l) (h' : Path nodes start l') : l = l' := by
  induction h generalizing l' with
  | nil =>
    cases h'
    rfl
  | cons hn _ ih =>
    cases h' with
    | cons hn' h' =>
      obtain rfl := Option.some.inj (hn.symm.trans hn')
      rw [ih h']

theorem isSome (h : Path nodes start l) (ha : a ∈ l) : (nodes.get? a).isSome = true := by
  induction h with
  | nil => simp at ha
  | cons hn _ ih =>
    rcases List.mem_cons.1 ha with rfl | ha
    · simp [hn]
    · exact ih ha

theorem rest (h : Path nodes start l) (ha : a ∈ l) :
    ∃ l₁ l₂, l = l₁ ++ a :: l₂ ∧ Path nodes (some a) (a :: l₂) := by
  induction h with
  | nil => simp at ha
  | @cons b n l hn h ih =>
    rcases List.mem_cons.1 ha with rfl | ha
    · exact ⟨[], l, rfl, .cons hn h⟩
    · obtain ⟨l₁, l₂, rfl, hrest⟩ := ih ha
      exact ⟨b :: l₁, l₂, rfl, hrest⟩

theorem nodup (h : Path nodes start l) : l.Nodup := by
  induction h with
  | nil => exact .nil
  | @cons b n l hn h ih =>
    refine List.nodup_cons.2 ⟨fun hb => ?_, ih⟩
    obtain ⟨l₁, l₂, rfl, hrest⟩ := h.rest hb
    have heq := unique (.cons hn h) hrest
    have hlen := congrArg List.length heq
    simp only [List.length_cons, List.length_append] at hlen
    omega

theorem chainFrom (h : Path nodes start l) {fuel : Nat} (hf : l.length ≤ fuel) :
    ∃ c, nodes.chainFrom fuel start = some c ∧ c.map (·.1) = l ∧
      (c.filterMap fun e => e.2.slot.value?) = l.filterMap nodes.value? := by
  induction h generalizing fuel with
  | nil => exact ⟨[], by cases fuel <;> rfl, rfl, rfl⟩
  | @cons b n l hn h ih =>
    cases fuel with
    | zero => simp at hf
    | succ fuel =>
      obtain ⟨c, hc, hl, hv⟩ := @ih fuel (by simpa using hf)
      refine ⟨(b, n) :: c, by simp [Nodes.chainFrom, hn, hc], by simp [hl], ?_⟩
      simp only [List.filterMap_cons, hv, value?, hn, Option.bind_some]

theorem length_le_size (h : Path nodes start l) : l.length ≤ nodes.size :=
  Table.length_le_size h.nodup fun _ ha => h.isSome ha

theorem trail_eq (h : Path nodes start l) : nodes.trail start = l := by
  obtain ⟨c, hc, hl, -⟩ := h.chainFrom h.length_le_size
  rw [trail, hc, Option.getD_some, hl]

theorem values_eq {q : Queue} (h : Path nodes q.head l) :
    q.values nodes = some (nodes.waiting q.head) := by
  obtain ⟨c, hc, -, hv⟩ := h.chainFrom h.length_le_size
  rw [Queue.values, Queue.chain, hc, Option.map_some, hv, waiting, h.trail_eq]

theorem trail (h : Path nodes start l) : Path nodes start (nodes.trail start) := by
  rwa [h.trail_eq]

theorem next (h : Path nodes (some a) l) (hn : nodes.get? a = some n) :
    Path nodes n.next (nodes.trail n.next) := by
  cases h with
  | cons hn' hrest =>
    obtain rfl := Option.some.inj (hn.symm.trans hn')
    exact hrest.trail

theorem trail_cons (h : Path nodes (some a) l) (hn : nodes.get? a = some n) :
    nodes.trail (some a) = a :: nodes.trail n.next := by
  cases h with
  | cons hn' hrest =>
    obtain rfl := Option.some.inj (hn.symm.trans hn')
    rw [(Path.cons hn hrest).trail_eq, hrest.trail_eq]

theorem congr (h : Path nodes start l)
    (hnext : ∀ a ∈ l, (nodes'.get? a).map (·.next) = (nodes.get? a).map (·.next)) :
    Path nodes' start l := by
  induction h with
  | nil => exact .nil
  | cons hn _ ih =>
    have hself := hnext _ (List.mem_cons_self ..)
    rw [hn, Option.map_some] at hself
    obtain ⟨n', hn', heq⟩ := Option.map_eq_some_iff.1 hself
    refine .cons hn' ?_
    rw [heq]
    exact ih fun a ha => hnext a (List.mem_cons_of_mem _ ha)

theorem insert (h : Path nodes start l) (ha : a ∉ l) (n : Node V) :
    Path (nodes.insert a n) start l :=
  h.congr fun b hb => by rw [Table.get?_insert_of_ne (ne_of_mem_of_not_mem hb ha)]

theorem setSlot (h : Path nodes start l) (hn : nodes.get? a = some n) (slot : Slot V) :
    Path (nodes.insert a { n with slot }) start l := by
  apply h.congr
  intro b _
  rw [Table.get?_insert]
  split
  · rename_i hb
    rw [hb, hn]
    rfl
  · rfl

theorem eq_none (h : Path nodes start []) : start = none := by
  cases h
  rfl

theorem next_getLast (h : Path nodes start (l ++ [t])) (hlast : nodes.get? t = some last) :
    last.next = none := by
  induction l generalizing start with
  | nil =>
    cases h with
    | cons hn hrest =>
      obtain rfl := Option.some.inj (hlast.symm.trans hn)
      exact hrest.eq_none
  | cons b l ih =>
    cases h with
    | cons _ hrest => exact ih hrest

/-- A cell that is linked behind the last one ends the chain. -/
theorem extend (h : Path nodes start (l ++ [t])) (hlast : nodes.get? t = some last)
    (ha : a ∉ l ++ [t]) (hn : nodes.get? a = some n) (hnext : n.next = none) :
    Path (nodes.insert t { last with next := some a }) start (l ++ [t, a]) := by
  induction l generalizing start with
  | nil =>
    have hat : a ≠ t := by simpa using ha
    have hnew : (nodes.insert t { last with next := some a }).get? a = some n := by
      rw [Table.get?_insert_of_ne hat, hn]
    cases h with
    | cons =>
      refine .cons (Table.get?_insert_self ..) (.cons hnew ?_)
      rw [hnext]
      exact .nil
  | cons b l ih =>
    have hnodup := h.nodup
    cases h with
    | cons hb hrest =>
      have hbt : b ≠ t := by
        rintro rfl
        simp at hnodup
      refine .cons (by rw [Table.get?_insert_of_ne hbt, hb]) (ih hrest ?_)
      exact fun hmem => ha (List.mem_cons_of_mem _ hmem)

theorem waiting_congr (h : Path nodes start l)
    (hsame : ∀ a ∈ l, nodes'.get? a = nodes.get? a) :
    nodes'.waiting start = nodes.waiting start := by
  have h' : Path nodes' start l := h.congr fun a ha => by rw [hsame a ha]
  rw [waiting, waiting, h.trail_eq, h'.trail_eq]
  exact List.filterMap_congr fun a ha => by rw [value?, value?, hsame a ha]

theorem waiting_cons (h : Path nodes (some a) l) (hn : nodes.get? a = some n) :
    nodes.waiting (some a) = n.slot.value?.toList ++ nodes.waiting n.next := by
  have hvalue : nodes.value? a = n.slot.value? := by rw [value?, hn, Option.bind_some]
  rw [waiting, waiting, h.trail_cons hn, List.filterMap_cons, hvalue]
  cases n.slot.value? <;> rfl

theorem waiting_none : nodes.waiting none = [] := by
  rw [waiting, (Path.nil : Path nodes none []).trail_eq, List.filterMap_nil]

theorem waiting_extend (h : Path nodes start (l ++ [t])) (hlast : nodes.get? t = some last)
    (ha : a ∉ l ++ [t]) (hn : nodes.get? a = some n) (hnext : n.next = none) :
    waiting (nodes.insert t { last with next := some a }) start =
      nodes.waiting start ++ n.slot.value?.toList := by
  have hnew : nodes.value? a = n.slot.value? := by rw [value?, hn, Option.bind_some]
  rw [waiting, waiting, (h.extend hlast ha hn hnext).trail_eq, h.trail_eq,
    List.filterMap_congr fun b _ => value?_setNext hlast _ b, List.append_cons,
    List.filterMap_append, List.filterMap_cons, hnew]
  cases n.slot.value? <;> rfl

end Path
end Reclaim.Nodes
