import Reclaim.Proofs.Interleaved.QueueStages

set_option autoImplicit false

namespace Reclaim.Interleaved
variable {V : Type} {s s' : Shared V} {h es : List (QueueEvent V)} {a b : Address} {v : V}
  {t : ThreadId} {fresh fresh' : Address} {i i' j j' : Nat} {o : Operation} {o' : Option Operation}
  {ops : ThreadId → Option Operation}

structure Inv (s : Shared V) (h : List (QueueEvent V)) (ops : ThreadId → Option Operation)
    (fresh : Address) (i j : Nat) : Prop where
  shape : Shape s (links h) i j
  contents : Contents s (links h) (removals h) i
  offered : Offers s h fresh fun t => (ops t).bind Operation.offered
  claims : Claims s h fun t => (ops t).bind Operation.claims
  unlinked : ∀ a ∈ (order (links h)).take i, ∀ v, s.slotOf a = .full v →
    ∃ t, (ops t).bind Operation.unlinks = some a
  returns : Returns h fun t => (ops t).isSome = true
  fits : ∀ t o, ops t = some o → Fits s h i j t o

theorem bind_update {α : Type} (f : Operation → Option α) :
    (fun u => (Function.update ops t o' u).bind f) =
      Function.update (fun u => (ops u).bind f) t (o'.bind f) := by
  funext u
  by_cases hu : u = t
  · rw [hu, Function.update_self, Function.update_self]
  · rw [Function.update_of_ne hu, Function.update_of_ne hu]

theorem update_bind_same {α : Type} {f : Operation → Option α}
    (hsame : o'.bind f = (ops t).bind f) :
    Function.update (fun u => (ops u).bind f) t (o'.bind f) = fun u => (ops u).bind f := by
  rw [hsame]
  exact Function.update_eq_self t _

theorem isSome_of_update {u : ThreadId} (ht : (ops t).isSome = true)
    (hu : (Function.update ops t o' u).isSome = true) : (ops u).isSome = true := by
  by_cases hut : u = t
  · rwa [hut]
  · rwa [Function.update_of_ne hut] at hu

namespace Inv

theorem assemble (I : Inv s h ops fresh i j) (g : Grows s s' h es i i' j j')
    (shape : Shape s' (links (es ++ h)) i' j')
    (contents : Contents s' (links (es ++ h)) (removals (es ++ h)) i')
    (offers : Offers s' (es ++ h) fresh'
      (Function.update (fun u => (ops u).bind Operation.offered) t (o'.bind Operation.offered)))
    (claims : Claims s' (es ++ h)
      (Function.update (fun u => (ops u).bind Operation.claims) t (o'.bind Operation.claims)))
    (returns : Returns (es ++ h) fun u => (Function.update ops t o' u).isSome = true)
    (hi : i' < (order (links h)).length) (hes : ∀ e ∈ es, ∀ u, u ≠ t → ¬ e.begins u)
    (hunlinks : ∀ a v, s'.slotOf a = .full v →
      (ops t).bind Operation.unlinks = some a ∨ (a, v) ∈ removals es →
      o'.bind Operation.unlinks = some a)
    (hfits : ∀ o, o' = some o → Fits s' (es ++ h) i' j' t o) :
    Inv s' (es ++ h) (Function.update ops t o') fresh' i' j' := by
  refine ⟨shape, contents, bind_update _ ▸ offers, bind_update _ ▸ claims,
    ?_, returns, ?_⟩
  · intro a ha v hv
    rw [links_append, order, List.map_append, ← List.cons_append, ← order,
      List.take_append_of_le_length (Nat.le_of_lt hi)] at ha
    obtain ⟨hold, hgone⟩ := g.full a (List.mem_of_mem_take ha) v hv
    rcases hgone (mem_take_order (Nat.le_refl i') ha) with hback | hremoved
    · obtain ⟨u, hu⟩ := I.unlinked a hback v hold
      by_cases hut : u = t
      · refine ⟨t, ?_⟩
        rw [Function.update_self]
        exact hunlinks a v hv (.inl (hut ▸ hu))
      · exact ⟨u, by rw [Function.update_of_ne hut, hu]⟩
    · refine ⟨t, ?_⟩
      rw [Function.update_self]
      exact hunlinks a v hv (.inr hremoved)
  · intro u o hu
    by_cases hut : u = t
    · rw [hut, Function.update_self] at hu
      exact hut ▸ hfits o hu
    · rw [Function.update_of_ne hut] at hu
      exact (I.fits u o hu).grow g fun e he => hes e he u hut

/-- An access that writes no node, moves the head nowhere and ends at most an operation that found
nothing to return. -/
theorem quiet (I : Inv s h ops fresh i j) (ht : ops t = some o) (hs : Shape s' (links h) i j')
    (hnodes : s'.nodes = s.nodes) (hj : j ≤ j') (hes : ∀ e ∈ es, e.isInner)
    (hlinks : links es = []) (hremovals : removals es = [])
    (hoffered : o'.bind Operation.offered = o.offered)
    (hclaims : o'.bind Operation.claims = o.claims)
    (hunlinks : ∀ a v, o.unlinks = some a → s.slotOf a = .full v →
      o'.bind Operation.unlinks = some a)
    (hfits : ∀ o, o' = some o → Fits s' (es ++ h) i j' t o) :
    Inv s' (es ++ h) (Function.update ops t o') fresh i j' := by
  have hl : links (es ++ h) = links h := links_append_of_nil hlinks
  have hr : removals (es ++ h) = removals h := told_append_of_nil hremovals
  have hbegins (u : ThreadId) : ∀ e ∈ es, ¬ e.begins u := fun e he => (hes e he).2.2 u
  have hslot (a : Address) : s'.slotOf a = s.slotOf a := by
    rw [Shared.slotOf, Shared.slotOf, hnodes]
  refine I.assemble (Grows.still hnodes hlinks hj) (hl.symm ▸ hs) ?_ ?_ ?_ ?_ I.shape.front_lt
    (fun e he u _ => hbegins u e he) ?_ hfits
  · rw [hl, hr]
    exact I.contents.congr fun a _ => hslot a
  · rw [update_bind_same (by rw [hoffered, ht, Option.bind_some])]
    exact I.offered.keep I.shape (offers_append_of_inner hes) hl fun a _ => by rw [hnodes]
  · rw [update_bind_same (by rw [hclaims, ht, Option.bind_some])]
    refine I.claims.keep (receipts_append_of_inner hes) (fun x hx => hl ▸ hx)
      (fun x hx => .inl (hl ▸ hx)) (fun a _ => hslot a) (fun a v hv => (hslot a).symm.trans hv) ?_
    intro u a _ x hx
    exact mem_removals_during (hbegins u) hx
  · exact I.returns.keep hes fun u => isSome_of_update (by rw [ht]; rfl)
  · intro a v hv ha
    rcases ha with ha | ha
    · rw [ht, Option.bind_some] at ha
      exact hunlinks a v ha ((hslot a).symm.trans hv)
    · rw [hremovals] at ha
      cases ha

theorem link (I : Inv s h ops fresh i j) (ht : ops t = some (.enqueue a (.link b)))
    (hnext : s.nextOf b = none) :
    ∃ v, s.slotOf a = .full v ∧ Inv (s.setNext b a) ([.linked a v] ++ h)
      (Function.update ops t (some (.enqueue a (.advance b a true)))) fresh i j := by
  have hb : b ∈ order (links h) := I.fits t _ ht
  obtain ⟨v, ha⟩ := I.offered.pending t a (by rw [ht]; rfl)
  have hlinks : links ([.linked a v] ++ h) = links h ++ [(a, v)] := told_append ..
  have hremovals : removals ([.linked a v] ++ h) = removals h := told_append_of_nil rfl
  have hbegins (u : ThreadId) : ∀ e ∈ [QueueEvent.linked a v], ¬ e.begins u := by
    simp [QueueEvent.begins]
  have hcell : (s.nodes.get? a).isSome = true := by rw [ha.cell]; rfl
  have hslot (c : Address) : (s.setNext b a).slotOf c = s.slotOf c := Shared.slotOf_setNext c
  refine ⟨v, ha.slotOf_eq, I.assemble (Grows.link I.shape hb hnext v) ?_ ?_ ?_ ?_ ?_
    I.shape.front_lt (fun e he u _ => hbegins u e he) ?_ ?_⟩
  · rw [hlinks]
    exact I.shape.link hb hnext ha.new hcell ha.nextOf_eq
  · rw [hlinks, hremovals]
    exact I.contents.link I.shape.front_lt ha.slotOf_eq
  · exact I.offered.link ha hb
  · rw [update_bind_same (by rw [ht]; rfl)]
    refine I.claims.keep (told_append_of_nil rfl) ?_
      ?_ (fun c _ => hslot c) (fun c w hw => (hslot c).symm.trans hw)
      fun u c _ x hx => mem_removals_during (hbegins u) hx
    · intro x hx
      rw [hlinks]
      exact List.mem_append_left _ hx
    · intro x hx
      rw [hlinks, List.mem_append, List.mem_singleton] at hx
      apply hx.imp_right
      intro hx
      simp [hx, hslot, ha.slotOf_eq]
  · refine I.returns.keep (fun e he => ⟨?_, ?_, fun u => hbegins u e he⟩) fun u =>
      isSome_of_update (by rw [ht]; rfl)
    · rw [List.mem_singleton.1 he]
      rfl
    · rw [List.mem_singleton.1 he]
      rfl
  · intro c w _ hc
    rw [ht] at hc
    rcases hc with hc | hc <;> cases hc
  · rintro _ ⟨⟩
    exact (Shared.nextOf_setNext (I.shape.isSome hb) b).trans (if_pos rfl)

theorem claim (I : Inv s h ops fresh i j) {alone : Bool}
    (ht : ops t = some (.dequeue (.claim a alone))) (hv : s.slotOf a = .full v)
    (hes : es = if s.queue.head = some a then [.removed a v] else []) :
    Inv (s.setSlot a (.claimed v)) (es ++ h)
      (Function.update ops t (some (.dequeue (.count a)))) fresh i j := by
  obtain ⟨hseen, -⟩ : Seen s h i t a ∧ _ := I.fits t _ ht
  have ha := hseen.mem
  have hinner : ∀ e ∈ es, e.isInner := by
    rw [hes]
    split <;> simp [QueueEvent.isInner, QueueEvent.offer?, QueueEvent.receipt?, QueueEvent.begins]
  have hlinks : links es = [] := by
    rw [hes]
    split <;> rfl
  have hl : links (es ++ h) = links h := links_append_of_nil hlinks
  have hbegins (u : ThreadId) : ∀ e ∈ es, ¬ e.begins u := fun e he => (hinner e he).2.2 u
  have hslot := s.slotOf_setSlot (I.shape.isSome ha) (.claimed v)
  refine I.assemble (Grows.setSlot I.shape ha rfl hlinks) (hl ▸ I.shape.setSlot _) ?_ ?_ ?_ ?_
    I.shape.front_lt (fun e he u _ => hbegins u e he) ?_
    (by rintro _ ⟨⟩; trivial)
  -- At the head the claim removes the value; of an unlinked node it was removed before.
  · rw [hl, removals_append, hes]
    split
    · rename_i hhead
      exact I.contents.claim_head I.shape hhead hv
    · rename_i hhead
      refine (List.append_nil (removals h)).symm ▸ I.contents.claim_unlinked I.shape ?_ hv
      exact (I.shape.mem_take_succ.1 hseen.passed).resolve_right hhead
  · rw [update_bind_same (by rw [ht]; rfl)]
    apply I.offered.keep I.shape (offers_append_of_inner hinner) hl
    intro c hc
    rw [Shared.setSlot, Table.get?_modify, if_neg (ne_of_mem_of_not_mem ha hc).symm]
  · refine I.claims.claim I.shape ha hv (receipts_append_of_inner hinner) hl (by rw [ht]; rfl) ?_
      fun u x hx => mem_removals_during (hbegins u) hx
    by_cases hhead : s.queue.head = some a
    · refine mem_removals_during_new (hbegins t) ?_
      rw [hes, if_pos hhead]
      exact List.mem_singleton_self _
    · refine mem_removals_during (hbegins t) (hseen.removed v hv ?_)
      exact (I.shape.mem_take_succ.1 hseen.passed).resolve_right hhead
  · exact I.returns.keep hinner fun u => isSome_of_update (by rw [ht]; rfl)
  · intro c w hc hc'
    have hca : c ≠ a := by
      rintro rfl
      rw [hslot, if_pos rfl] at hc
      cases hc
    rcases hc' with hc' | hc'
    · rw [ht] at hc'
      cases alone with
      | false => exact absurd (Option.some.inj hc').symm hca
      | true => cases hc'
    · rw [hes] at hc'
      split at hc'
      · exact absurd (congrArg (·.1) (List.mem_singleton.1 hc')) hca
      · cases hc'

/-- A removal unlinks the head, which removes the value if there is still one in it. -/
theorem unlink (I : Inv s h ops fresh i j) (ht : ops t = some (.dequeue (.unlink a b))) {q : Queue}
    (hq : s.queue.exchangeHead a b = some q)
    (hes : es = (s.slotOf a).value?.toList.map fun v => .removed a v) :
    Inv { s with queue := q } (es ++ h)
      (Function.update ops t (some (.dequeue (.test a false)))) fresh (i + 1) j := by
  obtain ⟨hpassed, hnext⟩ : a ∈ (order (links h)).take j ∧ s.nextOf a = some b := I.fits t _ ht
  have hhead : s.queue.head = some a := by
    unfold Queue.exchangeHead at hq
    split at hq
    · assumption
    · cases hq
  have hinner : ∀ e ∈ es, e.isInner := by
    rw [hes]
    cases (s.slotOf a).value? <;>
      simp [QueueEvent.isInner, QueueEvent.offer?, QueueEvent.receipt?, QueueEvent.begins]
  have hlinks : links es = [] := by
    rw [hes]
    cases (s.slotOf a).value? <;> rfl
  have hremovals : removals es = (s.pair? a).toList := by
    rw [hes, Shared.pair?]
    cases (s.slotOf a).value? <;> rfl
  have hgone : ∀ v, s.slotOf a = .full v → (a, v) ∈ removals es := by
    intro v hv
    rw [hremovals, Shared.pair?_of_full hv]
    exact List.mem_singleton_self _
  have hl : links (es ++ h) = links h := links_append_of_nil hlinks
  have hbegins (u : ThreadId) : ∀ e ∈ es, ¬ e.begins u := fun e he => (hinner e he).2.2 u
  have hshape := I.shape.exchangeHead hq hpassed hnext
  have hplace := I.shape.head.symm.trans hhead
  refine I.assemble (Grows.exchangeHead I.shape hhead hlinks hgone) (hl.symm ▸ hshape) ?_ ?_ ?_ ?_
    hshape.front_lt (fun e he u _ => hbegins u e he) ?_ ?_
  · rw [hl, removals_append, hremovals]
    exact I.contents.exchangeHead I.shape hq
  · rw [update_bind_same (by rw [ht]; rfl)]
    exact I.offered.keep I.shape (offers_append_of_inner hinner) hl fun _ _ => rfl
  · rw [update_bind_same (by rw [ht]; rfl)]
    exact I.claims.keep (receipts_append_of_inner hinner) (fun x hx => hl ▸ hx)
      (fun x hx => .inl (hl ▸ hx)) (fun _ _ => rfl) (fun _ _ hv => hv)
      fun u c _ x hx => mem_removals_during (hbegins u) hx
  · exact I.returns.keep hinner fun u => isSome_of_update (by rw [ht]; rfl)
  · intro c w _ hc
    rcases hc with hc | hc
    · rw [ht] at hc
      cases hc
    · rw [hremovals, Option.mem_toList] at hc
      exact congrArg some (Shared.pair?_eq_some.1 hc).2.symm
  · rintro _ ⟨⟩
    have htake : a ∈ (order (links h)).take (i + 1) := mem_take.2 ⟨i, Nat.lt_succ_self i, hplace⟩
    refine ⟨⟨?_, ?_⟩, ?_⟩
    · exact mem_take_order (Nat.le_succ _) htake
    · intro v hv _
      exact mem_removals_during_new (hbegins t) (hgone v hv)
    · intro _
      exact mem_take_order (Nat.le_refl _) htake

theorem take (I : Inv s h ops fresh i j) (ht : ops t = some (.dequeue (.take a))) :
    ∃ v, s.slotOf a = .claimed v ∧ Inv (s.setSlot a .vacant) ([.returned t (some (a, v))] ++ h)
      (Function.update ops t none) fresh i j := by
  obtain ⟨ha, v, hv, hremoved⟩ := I.claims.held t a (by rw [ht]; rfl)
  have hmem := I.contents.content a ha v (.inr hv)
  have hl : links ([.returned t (some (a, v))] ++ h) = links h := told_append_of_nil rfl
  have hr : removals ([.returned t (some (a, v))] ++ h) = removals h := told_append_of_nil rfl
  refine ⟨v, hv, I.assemble (Grows.setSlot I.shape ha rfl rfl) (hl ▸ I.shape.setSlot _) ?_ ?_ ?_
    ?_ I.shape.front_lt ?_ ?_ (by rintro _ ⟨⟩)⟩
  · rw [hl, hr]
    exact I.contents.take I.shape ha hv
  · rw [update_bind_same (by rw [ht]; rfl)]
    apply I.offered.keep I.shape (told_append_of_nil rfl) hl
    intro c hc
    rw [Shared.setSlot, Table.get?_modify, if_neg (ne_of_mem_of_not_mem ha hc).symm]
  · exact I.claims.take I.shape (by rw [ht]; rfl) hmem hv
  · apply I.returns.take (by rw [ht]; rfl) hremoved
    intro u hu
    have hut : u ≠ t := by
      rintro rfl
      rw [Function.update_self] at hu
      cases hu
    exact ⟨hut, by rwa [Function.update_of_ne hut] at hu⟩
  · intro e he u _
    simp [List.mem_singleton.1 he, QueueEvent.begins]
  · intro c w _ hc
    rw [ht] at hc
    rcases hc with hc | hc <;> cases hc

theorem beginDequeue (I : Inv s h ops fresh i j) (ht : ops t = none) :
    Inv s ([.begun t none] ++ h) (Function.update ops t (some (.dequeue .readHead))) fresh i j := by
  have hl : links ([.begun t none] ++ h) = links h := told_append_of_nil rfl
  have hr : removals ([.begun t none] ++ h) = removals h := told_append_of_nil rfl
  have hother : ∀ e ∈ [QueueEvent.begun (V := V) t none], ∀ u, u ≠ t → ¬ e.begins u := by
    simp [QueueEvent.begins, @eq_comm _ t]
  refine I.assemble (Grows.still rfl rfl (Nat.le_refl j)) (hl ▸ I.shape) ?_ ?_ ?_ ?_
    I.shape.front_lt hother ?_ (by rintro _ ⟨⟩; trivial)
  · rw [hl, hr]
    exact I.contents
  · rw [update_bind_same (by rw [ht]; rfl)]
    exact I.offered.keep I.shape (told_append_of_nil rfl) hl fun _ _ => rfl
  · rw [update_bind_same (by rw [ht]; rfl)]
    refine I.claims.keep (told_append_of_nil rfl) (fun x hx => hl ▸ hx)
      (fun x hx => .inl (hl ▸ hx)) (fun _ _ => rfl) (fun _ _ hv => hv) fun u c hc x hx => ?_
    refine mem_removals_during (fun e he => hother e he u ?_) hx
    rintro rfl
    rw [ht] at hc
    cases hc
  · apply I.returns.begin none
    intro u hut hu
    rwa [Function.update_of_ne hut] at hu
  · intro c w _ hc
    rw [ht] at hc
    rcases hc with hc | hc <;> cases hc

theorem beginEnqueue (I : Inv s h ops fresh i j) (ht : ops t = none) (v : V) :
    Inv { s with nodes := s.nodes.insert fresh { slot := .full v } }
      ([.begun t (some (fresh, v))] ++ h)
      (Function.update ops t (some (.enqueue fresh .readTail))) (fresh + 1) i j := by
  have hl : links ([.begun t (some (fresh, v))] ++ h) = links h := told_append_of_nil rfl
  have hr : removals ([.begun t (some (fresh, v))] ++ h) = removals h := told_append_of_nil rfl
  have hnew := I.offered.get?_fresh
  have hother : ∀ e ∈ [QueueEvent.begun t (some (fresh, v))], ∀ u, u ≠ t → ¬ e.begins u := by
    simp [QueueEvent.begins, @eq_comm _ t]
  let s' : Shared V := { s with nodes := s.nodes.insert fresh { slot := .full v } }
  have hsame : ∀ a ∈ order (links h), s'.slotOf a = s.slotOf a := by
    intro a ha
    have haf : a ≠ fresh := by
      rintro rfl
      have hcell := I.shape.isSome ha
      rw [hnew] at hcell
      cases hcell
    rw [Shared.slotOf, Shared.slotOf, Table.get?_insert_of_ne haf]
  refine I.assemble (Grows.insert I.shape hnew _ rfl) (hl ▸ I.shape.insert hnew _) ?_ ?_ ?_ ?_
    I.shape.front_lt hother ?_ (by rintro _ ⟨⟩; trivial)
  · rw [hl, hr]
    exact I.contents.congr hsame
  · exact I.offered.offer I.shape (by rw [ht]; rfl) v
  · rw [update_bind_same (by rw [ht]; rfl)]
    refine I.claims.keep (told_append_of_nil rfl) (fun x hx => hl ▸ hx)
      (fun x hx => .inl (hl ▸ hx)) hsame ?_ ?_
    · intro a w hw
      rw [Shared.slotOf, Table.get?_insert] at hw
      split at hw
      · cases hw
      · exact hw
    · intro u c hc x hx
      refine mem_removals_during (fun e he => hother e he u ?_) hx
      rintro rfl
      rw [ht] at hc
      cases hc
  · apply I.returns.begin _
    intro u hut hu
    rwa [Function.update_of_ne hut] at hu
  · intro c w _ hc
    rw [ht] at hc
    rcases hc with hc | hc <;> cases hc

end Inv
end Reclaim.Interleaved
