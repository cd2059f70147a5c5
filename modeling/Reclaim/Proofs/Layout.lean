import Mathlib.Data.List.Flatten
import Reclaim.Proofs.Chains
import Reclaim.World.State

set_option autoImplicit false

namespace Reclaim
variable {V : Type}

structure Spaced (fresh : Address) (l others loose : List Address) : Prop where
  distinct : (l ++ others).Nodup
  apart : (l ++ loose).Nodup
  bounded : ∀ a ∈ l ++ (others ++ loose), a < fresh

namespace Spaced
variable {fresh a : Address} {l l' others others' loose loose' : List Address}

theorem nodup_of_subperm (h : l'.Subperm l) (hl : l.Nodup) : l'.Nodup := by
  obtain ⟨k, hperm, hsub⟩ := h
  exact hperm.nodup_iff.1 (hsub.nodup hl)

theorem mono (h : Spaced fresh l others loose) (hl : l'.Subperm l) (ho : others'.Subperm others)
    (hloose : loose'.Subperm loose) : Spaced fresh l' others' loose' where
  distinct := nodup_of_subperm (hl.append ho) h.distinct
  apart := nodup_of_subperm (hl.append hloose) h.apart
  bounded a ha := h.bounded a ((hl.append (ho.append hloose)).subset ha)

theorem ne_fresh (h : Spaced fresh l others loose) (ha : a ∈ l ++ (others ++ loose)) : a ≠ fresh :=
  Nat.ne_of_lt (h.bounded a ha)

theorem grow (h : Spaced fresh l others loose) :
    Spaced (fresh + 1) (fresh :: l) others loose where
  distinct := by
    refine List.nodup_cons.2 ⟨fun hmem => h.ne_fresh ?_ rfl, h.distinct⟩
    rw [← List.append_assoc]
    exact List.mem_append_left _ hmem
  apart := by
    refine List.nodup_cons.2 ⟨fun hmem => h.ne_fresh ?_ rfl, h.apart⟩
    rcases List.mem_append.1 hmem with hmem | hmem <;> simp [hmem]
  bounded a ha := by
    rcases List.mem_cons.1 ha with rfl | ha
    · exact Nat.lt_succ_self a
    · exact Nat.lt_succ_of_lt (h.bounded a ha)

theorem reserve (h : Spaced fresh l others loose) :
    Spaced (fresh + 1) l (fresh :: others) loose where
  distinct := by
    have := h.grow.distinct
    exact List.perm_middle.nodup_iff.2 this
  apart := h.apart
  bounded a ha := h.grow.bounded a (List.perm_middle.mem_iff.1 ha)

theorem detach (h : Spaced fresh (a :: l) others loose) :
    Spaced fresh l (a :: others) (a :: loose) where
  distinct := List.perm_middle.nodup_iff.2 h.distinct
  apart := List.perm_middle.nodup_iff.2 h.apart
  bounded b hb := by
    apply h.bounded b
    simp only [List.mem_append, List.mem_cons] at hb ⊢
    tauto

theorem not_mem_others (h : Spaced fresh l others loose) (ha : a ∈ l) : a ∉ others :=
  fun hmem => (List.nodup_append.1 h.distinct).2.2 a ha a hmem rfl

theorem not_mem_loose (h : Spaced fresh l others loose) (ha : a ∈ l) : a ∉ loose :=
  fun hmem => (List.nodup_append.1 h.apart).2.2 a ha a hmem rfl

end Spaced

structure Census (V : Type) where
  nodes : Nodes (Payload V)
  fresh : Address
  queues : List (Option Address × Option Address)
  cuts : List (Option Address)
  news : List (Address × Payload V)
  /-- Records, and all that was ever retired. -/
  others : List Address
  /-- The nodes that are unlinked and may still have their value. -/
  loose : List Address

namespace Census

def starts (c : Census V) : List (Option Address) := c.queues.map (·.1) ++ c.cuts

def linked (c : Census V) : List Address := c.starts.flatMap c.nodes.trail

def taken (c : Census V) : List Address := c.linked ++ c.news.map (·.1)

structure Valid (c : Census V) : Prop where
  path : ∀ s ∈ c.starts, ∃ l, Nodes.Path c.nodes s l
  last : ∀ e ∈ c.queues, ∃ t, e.2 = some t ∧ (c.nodes.trail e.1).getLast? = some t
  new : ∀ x ∈ c.news, c.nodes.get? x.1 = some { slot := .full x.2 }
  unclaimed : ∀ a ∈ c.loose, (c.nodes.get? a).isSome = true
  spaced : Spaced c.fresh c.taken c.others c.loose

theorem mem_linked {c : Census V} {s : Option Address} (hs : s ∈ c.starts) {a : Address}
    (ha : a ∈ c.nodes.trail s) : a ∈ c.linked :=
  List.mem_flatMap.2 ⟨s, hs, ha⟩

theorem taken_subperm {c c' : Census V} (hn : c'.nodes = c.nodes)
    (hq : c'.queues.Subperm c.queues) (hc : c'.cuts.Subperm c.cuts)
    (hw : c'.news.Subperm c.news) : c'.taken.Subperm c.taken := by
  obtain ⟨qs, hqs, hqsub⟩ := hq
  obtain ⟨ws, hws, hwsub⟩ := hw
  obtain ⟨ss, hss, hssub⟩ : c'.starts.Subperm c.starts :=
    List.Subperm.append ⟨_, hqs.map _, hqsub.map _⟩ hc
  have hlinked : c'.linked.Subperm c.linked := by
    rw [linked, linked, hn]
    exact ⟨_, hss.flatMap_right _, hssub.flatMap _⟩
  exact hlinked.append ⟨_, hws.map _, hwsub.map _⟩

namespace Valid
variable {c c' : Census V} {a t next : Address} {n last : Node (Payload V)} {p : Payload V}
  {s : Option Address}

theorem mono (h : c.Valid) (hn : c'.nodes = c.nodes) (hf : c'.fresh = c.fresh)
    (hq : c'.queues.Subperm c.queues) (hc : c'.cuts.Subperm c.cuts)
    (hw : c'.news.Subperm c.news) (ho : c'.others.Subperm c.others)
    (hl : c'.loose.Subperm c.loose) : c'.Valid where
  path s hs := by
    rw [hn]
    apply h.path s
    rcases List.mem_append.1 hs with hs | hs
    · exact List.mem_append_left _ (List.map_subset _ hq.subset hs)
    · exact List.mem_append_right _ (hc.subset hs)
  last e he := by
    rw [hn]
    exact h.last e (hq.subset he)
  new x hx := by
    rw [hn]
    exact h.new x (hw.subset hx)
  unclaimed a ha := by
    rw [hn]
    exact h.unclaimed a (hl.subset ha)
  spaced := by
    rw [hf]
    exact h.spaced.mono (taken_subperm hn hq hc hw) ho hl

theorem trail_path (h : c.Valid) (hs : s ∈ c.starts) :
    Nodes.Path c.nodes s (c.nodes.trail s) := by
  obtain ⟨l, hl⟩ := h.path s hs
  exact hl.trail

theorem start_mem_trail (h : c.Valid) (hs : some a ∈ c.starts) :
    a ∈ c.nodes.trail (some a) := by
  obtain ⟨l, hl⟩ := h.path _ hs
  rw [hl.trail_eq]
  cases hl
  exact List.mem_cons_self ..

theorem start_mem_linked (h : c.Valid) (hs : some a ∈ c.starts) : a ∈ c.linked :=
  mem_linked hs (h.start_mem_trail hs)

theorem isSome_of_linked (h : c.Valid) (ha : a ∈ c.linked) :
    (c.nodes.get? a).isSome = true := by
  obtain ⟨s, hs, ha⟩ := List.mem_flatMap.1 ha
  exact (h.trail_path hs).isSome ha

theorem ne_fresh_of_linked (h : c.Valid) (ha : a ∈ c.linked) : a ≠ c.fresh :=
  h.spaced.ne_fresh (List.mem_append_left _ (List.mem_append_left _ ha))

theorem ne_fresh_of_loose (h : c.Valid) (ha : a ∈ c.loose) : a ≠ c.fresh :=
  h.spaced.ne_fresh (List.mem_append_right _ (List.mem_append_right _ ha))

theorem not_mem_loose (h : c.Valid) (ha : a ∈ c.linked) : a ∉ c.loose :=
  h.spaced.not_mem_loose (List.mem_append_left _ ha)

theorem not_mem_news (h : c.Valid) (ha : a ∈ c.linked) : a ∉ c.news.map (·.1) := fun hmem =>
  (List.nodup_append.1 (List.nodup_append.1 h.spaced.distinct).1).2.2 a ha a hmem rfl

theorem not_mem_trail {e : Option Address × Option Address}
    {qs : List (Option Address × Option Address)} (h : c.Valid) (hq : c.queues = e :: qs)
    (ha : a ∈ c.nodes.trail e.1) (hs : s ∈ qs.map (·.1) ++ c.cuts) : a ∉ c.nodes.trail s := by
  have hnodup := (List.nodup_append.1 (List.nodup_append.1 h.spaced.distinct).1).1
  rw [linked, starts, hq, List.map_cons, List.cons_append, List.flatMap_cons] at hnodup
  exact fun hmem => (List.nodup_append.1 hnodup).2.2 a ha a
    (List.mem_flatMap.2 ⟨s, hs, hmem⟩) rfl

theorem setNodes (h : c.Valid) (nodes : Nodes (Payload V))
    (hnext : ∀ a ∈ c.linked, (nodes.get? a).map (·.next) = (c.nodes.get? a).map (·.next))
    (hnew : ∀ x ∈ c.news, nodes.get? x.1 = c.nodes.get? x.1)
    (hloose : ∀ a ∈ c.loose, (nodes.get? a).isSome = true) : Valid { c with nodes } := by
  have hpath : ∀ s ∈ c.starts, Nodes.Path nodes s (c.nodes.trail s) := fun s hs =>
    (h.trail_path hs).congr fun a ha => hnext a (mem_linked hs ha)
  have htrail : ∀ s ∈ c.starts, nodes.trail s = c.nodes.trail s := fun s hs =>
    (hpath s hs).trail_eq
  have hlinked : linked { c with nodes } = c.linked := List.flatMap_congr htrail
  refine ⟨fun s hs => ⟨_, hpath s hs⟩, ?_, ?_, hloose, ?_⟩
  · intro e he
    change ∃ t, e.2 = some t ∧ (nodes.trail e.1).getLast? = some t
    rw [htrail e.1 (List.mem_append_left _ (List.mem_map_of_mem he))]
    exact h.last e he
  · intro x hx
    exact (hnew x hx).trans (h.new x hx)
  · rw [taken, hlinked]
    exact h.spaced

theorem setFresh (h : c.Valid) (n : Node (Payload V)) :
    Valid { c with nodes := c.nodes.insert c.fresh n } := by
  have hget {b : Address} (hb : b ∈ c.taken ++ (c.others ++ c.loose)) :
      (c.nodes.insert c.fresh n).get? b = c.nodes.get? b := by
    exact Table.get?_insert_of_ne (h.spaced.ne_fresh hb)
  refine h.setNodes _ ?_ ?_ ?_
  · intro b hb
    rw [hget (List.mem_append_left _ (List.mem_append_left _ hb))]
  · intro x hx
    exact hget (List.mem_append_left _ (List.mem_append_right _ (List.mem_map_of_mem hx)))
  · intro b hb
    rw [hget (List.mem_append_right _ (List.mem_append_right _ hb))]
    exact h.unclaimed b hb

theorem setSlot (h : c.Valid) (hn : c.nodes.get? a = some n) (ha : a ∉ c.news.map (·.1))
    (slot : Slot (Payload V)) : Valid { c with nodes := c.nodes.insert a { n with slot } } := by
  refine h.setNodes _ ?_ ?_ ?_
  · intro b _
    rw [Table.get?_insert]
    split
    · rename_i hb
      rw [hb, hn]
      rfl
    · rfl
  · intro x hx
    apply Table.get?_insert_of_ne
    rintro rfl
    exact ha (List.mem_map_of_mem hx)
  · intro b hb
    rw [Table.get?_insert]
    split
    · rfl
    · exact h.unclaimed b hb

theorem erase (h : c.Valid) (ha : a ∉ c.taken ++ c.loose) :
    Valid { c with nodes := c.nodes.erase a } := by
  have hget {b : Address} (hb : b ∈ c.taken ++ c.loose) :
      (c.nodes.erase a).get? b = c.nodes.get? b := by
    exact Table.get?_erase_of_ne (ne_of_mem_of_not_mem hb ha)
  refine h.setNodes _ ?_ ?_ ?_
  · intro b hb
    rw [hget (List.mem_append_left _ (List.mem_append_left _ hb))]
  · intro x hx
    exact hget (List.mem_append_left _ (List.mem_append_right _ (List.mem_map_of_mem hx)))
  · intro b hb
    rw [hget (List.mem_append_right _ hb)]
    exact h.unclaimed b hb

theorem createQueue (h : c.Valid) :
    Valid { c with
      nodes := c.nodes.insert c.fresh {}
      fresh := c.fresh + 1
      queues := (some c.fresh, some c.fresh) :: c.queues } := by
  have h' := h.setFresh {}
  have hpath : Nodes.Path (c.nodes.insert c.fresh {}) (some c.fresh) [c.fresh] := by
    exact .cons (Table.get?_insert_self ..) .nil
  refine ⟨?_, ?_, h'.new, h'.unclaimed, ?_⟩
  · intro s hs
    rcases List.mem_cons.1 hs with rfl | hs
    · exact ⟨_, hpath⟩
    · exact h'.path s hs
  · intro e he
    rcases List.mem_cons.1 he with rfl | he
    · exact ⟨c.fresh, rfl, by rw [hpath.trail_eq]; rfl⟩
    · exact h'.last e he
  · rw [taken, linked]
    change Spaced _ (Nodes.trail _ (some c.fresh) ++ _ ++ _) _ _
    rw [hpath.trail_eq]
    exact h'.spaced.grow

theorem allocate (h : c.Valid) (p : Payload V) :
    Valid { c with
      nodes := c.nodes.insert c.fresh { slot := .full p }
      fresh := c.fresh + 1
      news := (c.fresh, p) :: c.news } := by
  have h' := h.setFresh { slot := .full p }
  refine ⟨h'.path, h'.last, ?_, h'.unclaimed, ?_⟩
  · intro x hx
    rcases List.mem_cons.1 hx with rfl | hx
    · exact Table.get?_insert_self ..
    · exact h'.new x hx
  · exact h'.spaced.grow.mono List.perm_middle.subperm (.refl _) (.refl _)

theorem reserve (h : c.Valid) :
    Valid { c with fresh := c.fresh + 1, others := c.fresh :: c.others } :=
  ⟨h.path, h.last, h.new, h.unclaimed, h.spaced.reserve⟩

theorem discard {qs : List (Option Address × Option Address)} {e : Option Address} (h : c.Valid)
    (hq : c.queues = (s, e) :: qs) : Valid { c with queues := qs, cuts := s :: c.cuts } := by
  have hstarts : (starts { c with queues := qs, cuts := s :: c.cuts }).Perm c.starts := by
    rw [starts, starts, hq]
    exact List.perm_middle
  refine ⟨fun s hs => h.path s (hstarts.mem_iff.1 hs), fun e he => h.last e ?_, h.new,
    h.unclaimed, h.spaced.mono ?_ (.refl _) (.refl _)⟩
  · rw [hq]
    exact List.mem_cons_of_mem _ he
  · exact ((hstarts.flatMap_right _).append_right _).subperm

theorem unlink {qs : List (Option Address × Option Address)} {e : Option Address} (h : c.Valid)
    (hq : c.queues = (some a, e) :: qs) (hn : c.nodes.get? a = some n)
    (hnext : n.next = some next) (he : e ≠ some a) :
    Valid { c with
      queues := (some next, e) :: qs
      others := a :: c.others
      loose := a :: c.loose } := by
  have hstarts : c.starts = some a :: (qs.map (·.1) ++ c.cuts) := by
    rw [starts, hq]
    rfl
  have hpath := h.trail_path (s := some a) (by simp [hstarts])
  have htrail := hpath.trail_cons hn
  rw [hnext] at htrail
  have htaken : c.taken = a :: taken { c with queues := (some next, e) :: qs } := by
    rw [taken, linked, hstarts, List.flatMap_cons, htrail]
    rfl
  refine ⟨?_, ?_, h.new, ?_, ?_⟩
  · intro s hs
    rcases List.mem_cons.1 hs with rfl | hs
    · exact ⟨_, hnext ▸ hpath.next hn⟩
    · exact h.path s (by simp only [hstarts, List.mem_cons]; exact .inr hs)
  · intro x hx
    rcases List.mem_cons.1 hx with rfl | hx
    · obtain ⟨t, rfl, ht⟩ := h.last (some a, e) (by simp [hq])
      refine ⟨t, rfl, ?_⟩
      rw [htrail, List.getLast?_cons] at ht
      cases hlast : (c.nodes.trail (some next)).getLast? with
      | none =>
        rw [hlast] at ht
        exact absurd ht.symm he
      | some b => rwa [hlast] at ht
    · exact h.last x (by simp [hq, hx])
  · intro b hb
    rcases List.mem_cons.1 hb with rfl | hb
    · exact Option.isSome_iff_exists.2 ⟨n, hn⟩
    · exact h.unclaimed b hb
  · have hspaced := h.spaced
    rw [htaken] at hspaced
    exact hspaced.detach

theorem free {cs : List (Option Address)} (h : c.Valid) (hc : c.cuts = some a :: cs)
    (hn : c.nodes.get? a = some n) :
    Valid { c with nodes := c.nodes.erase a, cuts := n.next :: cs } := by
  have hstarts : c.starts.Perm (some a :: (c.queues.map (·.1) ++ cs)) := by
    rw [starts, hc]
    exact List.perm_middle
  have hpath := h.trail_path (s := some a) (hstarts.mem_iff.2 (List.mem_cons_self ..))
  have htrail := hpath.trail_cons hn
  have htaken : c.taken.Perm (a :: taken { c with cuts := n.next :: cs }) := by
    apply ((hstarts.flatMap_right _).append_right _).trans
    rw [List.flatMap_cons, htrail, taken, linked, starts]
    refine List.Perm.cons a (List.Perm.append_right _ ?_)
    have hmove : (n.next :: (c.queues.map (·.1) ++ cs)).Perm (c.queues.map (·.1) ++ n.next :: cs) :=
      List.perm_middle.symm
    exact hmove.flatMap_right c.nodes.trail
  have h' : Valid { c with cuts := n.next :: cs } := by
    refine ⟨?_, h.last, h.new, h.unclaimed, h.spaced.mono ?_ (.refl _) (.refl _)⟩
    · intro s hs
      rcases List.mem_cons.1 (List.perm_middle.mem_iff.1 hs) with rfl | hs
      · exact ⟨_, hpath.next hn⟩
      · exact h.path s (hstarts.mem_iff.2 (List.mem_cons_of_mem _ hs))
    · exact (List.subperm_cons_self).trans htaken.symm.subperm
  apply h'.erase
  intro hmem
  rcases List.mem_append.1 hmem with hmem | hmem
  · have hnodup := htaken.nodup_iff.1 (List.nodup_append.1 h.spaced.distinct).1
    exact (List.nodup_cons.1 hnodup).1 hmem
  · exact h.spaced.not_mem_loose (htaken.mem_iff.2 (List.mem_cons_self ..)) hmem

theorem link {qs : List (Option Address × Option Address)} {ns : List (Address × Payload V)}
    (h : c.Valid) (hq : c.queues = (s, some t) :: qs) (hw : c.news = (a, p) :: ns)
    (hlast : c.nodes.get? t = some last) :
    Valid { c with
      nodes := c.nodes.insert t { last with next := some a }
      queues := (s, some a) :: qs
      news := ns } := by
  have hstarts : c.starts = s :: (qs.map (·.1) ++ c.cuts) := by
    rw [starts, hq]
    rfl
  obtain ⟨_, ht, hgetLast⟩ := h.last (s, some t) (by simp [hq])
  obtain rfl := Option.some.inj ht
  obtain ⟨l, hl⟩ := List.getLast?_eq_some_iff.1 hgetLast
  have hpath := h.trail_path (s := s) (by simp [hstarts])
  rw [hl] at hpath
  have hnew := h.new (a, p) (by simp [hw])
  have hnodup := (List.nodup_append.1 h.spaced.distinct).1
  rw [taken, linked, hstarts, List.flatMap_cons, hl, hw, List.map_cons] at hnodup
  obtain ⟨hold, -, hout⟩ := List.nodup_append.1 hnodup
  have ha : a ∉ l ++ [t] := fun hmem =>
    hout a (List.mem_append_left _ hmem) a (List.mem_cons_self ..) rfl
  have hother : t ∉ (qs.map (·.1) ++ c.cuts).flatMap c.nodes.trail := fun hmem =>
    (List.nodup_append.1 hold).2.2 t (by simp) t hmem rfl
  have hns : t ∉ ns.map (·.1) := fun hmem =>
    hout t (by simp) t (List.mem_cons_of_mem _ hmem) rfl
  have hpath' := hpath.extend hlast ha hnew rfl
  have hrest : ∀ s' ∈ qs.map (·.1) ++ c.cuts,
      Nodes.Path (c.nodes.insert t { last with next := some a }) s' (c.nodes.trail s') := by
    intro s' hs'
    refine (h.trail_path (by simp [hstarts, hs'])).insert (fun hmem => hother ?_) _
    exact List.mem_flatMap.2 ⟨s', hs', hmem⟩
  refine ⟨?_, ?_, ?_, ?_, ?_⟩
  · intro s' hs'
    rcases List.mem_cons.1 hs' with rfl | hs'
    · exact ⟨_, hpath'⟩
    · exact ⟨_, hrest s' hs'⟩
  · intro x hx
    rcases List.mem_cons.1 hx with rfl | hx
    · refine ⟨a, rfl, ?_⟩
      rw [hpath'.trail_eq]
      exact List.getLast?_append_cons ..
    · rw [(hrest x.1 (List.mem_append_left _ (List.mem_map_of_mem hx))).trail_eq]
      exact h.last x (by simp [hq, hx])
  · intro x hx
    refine Eq.trans ?_ (h.new x (by simp [hw, hx]))
    apply Table.get?_insert_of_ne
    rintro rfl
    exact hns (List.mem_map_of_mem hx)
  · intro b hb
    rw [Table.get?_insert]
    split
    · rfl
    · exact h.unclaimed b hb
  · refine h.spaced.mono (List.Perm.subperm ?_) (.refl _) (.refl _)
    -- The address only moves, from the nodes that wait to be linked to the end of the chain.
    have hlinked : (qs.map (·.1) ++ c.cuts).flatMap
        (Nodes.trail (c.nodes.insert t { last with next := some a })) =
        (qs.map (·.1) ++ c.cuts).flatMap c.nodes.trail :=
      List.flatMap_congr fun s' hs' => (hrest s' hs').trail_eq
    have hnew : taken { c with
        nodes := c.nodes.insert t { last with next := some a }
        queues := (s, some a) :: qs
        news := ns } =
          l ++ [t, a] ++ (qs.map (·.1) ++ c.cuts).flatMap c.nodes.trail ++ ns.map (·.1) := by
      rw [← hpath'.trail_eq, ← hlinked]
      rfl
    have hold : c.taken =
        l ++ [t] ++ (qs.map (·.1) ++ c.cuts).flatMap c.nodes.trail ++ a :: ns.map (·.1) := by
      rw [taken, linked, hstarts, hw, List.flatMap_cons, hl, List.map_cons]
    rw [hnew, hold]
    apply List.perm_iff_count.2
    intro b
    simp only [List.count_append, List.count_cons, List.count_nil]
    omega

end Valid
end Census
end Reclaim
