import Reclaim.Proofs.ChainMembers
import Reclaim.Proofs.NodeAccesses
import Reclaim.Proofs.ReturnedValues

/-!
The nodes that operations on queues look at are in memory and not reclaimed: the chains of queues
are whole and hold nothing that was retired, and the node that an attempt has unlinked stays until
the attempt has finished with it.
-/

set_option autoImplicit false

namespace Reclaim
variable {V : Type}

theorem Effect.isRecord {lossy : Prop} {g : Registry} {w w' : World V} {hs hs' : List (Holding V)}
    {a : Address} (e : Effect lossy g w hs w' hs') (h : w.IsRecord a) : w'.IsRecord a := by
  cases e with
  | createRecord name₁ acts hname =>
    obtain ⟨name, e₀, he₀, rfl⟩ := h
    refine ⟨name, e₀, (Table.get?_insert_of_ne ?_).trans he₀, rfl⟩
    rintro rfl
    rw [hname] at he₀
    cases he₀
  | condemn name₁ e₁ deleter he₁ hretired => exact (World.isRecord_retire he₁).2 h
  | destroyObject o ho => exact World.isRecord_markGone.2 h
  | unlink =>
    rw [World.noteUnlinked_eq]
    exact h
  | reorder | lose | fault | configure | storeCells | setThread | note | createQueue | spare
  | declare | settle | scan | abandon | acquire | publish | republish | giveName | takeName
  | release | enter | depart | allocate | link | count | setWaiter | help | begin | claimFront
  | findEmpty | claimDetached | missDetached | giveUp | finish | destroyNode | free | freed
  | vacant | drop | discard => exact h

namespace Frame

def unlinked? : Frame V → Option Address
  | .dequeue { stage := .unlinked _ _ a, .. } => some a
  | _ => none

/-- The queue that is being dropped, and where the rest of its chain begins. -/
def remnant? : Frame V → Option (QueueId × Option Address)
  | .dropChain queue next => some (queue, next)
  | _ => none

end Frame

theorem World.retirements_begin (w : World V) (i : Instruction V) :
    (w.begin i).world.retirements = w.retirements :=
  congrArg (List.filterMap Event.retired?) (w.history_begin i)

namespace Run
variable {m n : Run V}

def unlinked (m : Run V) : List Address := m.stack.filterMap Frame.unlinked?

def remnants (m : Run V) : List (QueueId × Option Address) := m.stack.filterMap Frame.remnant?

theorem Reachable.present (hm : m.Reachable) : m.control.isDangling = false := by
  induction hm with
  | refl => rfl
  | step hn _ ih => exact step_present (Reachable.sound hn) ih
  | next i _ _ _ _ _ =>
    obtain ⟨t, command⟩ := i
    cases command with
    | dropQueue name =>
      unfold World.begin World.start
      dsimp only
      split <;> rfl
    | perform | exit | atExit | retireNull => rfl

/-- What is in the chain of a queue, or in one that is being freed, was never retired. -/
theorem Reachable.chain_unretired (hm : m.Reachable) {s : Option Address}
    (hs : s ∈ (m.world.census m.holdings).starts) :
    ∃ l, Nodes.Path m.world.memory.nodes s l ∧
      ∀ a ∈ l, a ∉ m.world.retirements.map (·.address) := by
  have hsound := hm.sound
  refine ⟨_, hsound.census.trail_path hs, fun a ha hretired => ?_⟩
  refine hsound.not_linked ?_ (Census.mem_linked hs ha)
  exact List.mem_append_right _ (List.mem_append_right _ hretired)

theorem start_of_queue {name : Name} {q : Queue} (hq : m.world.queues.get? name = some q) :
    q.head ∈ (m.world.census m.holdings).starts := by
  have hmem : q.ends ∈ (m.world.census m.holdings).queues :=
    List.mem_map_of_mem (Table.mem_values.2 ⟨_, hq⟩)
  exact List.mem_append_left _ (List.mem_map_of_mem hmem)

theorem mem_holdings {f : Frame V} {k : Holding V} (hf : f ∈ m.stack) (hk : k ∈ f.holdings) :
    k ∈ m.holdings :=
  List.mem_flatMap.2 ⟨f, hf, hk⟩

theorem doomed_of_remainders {r : Retired} (hr : r ∈ m.remainders) :
    Holding.doomed r ∈ m.holdings := by
  obtain ⟨f, hf, hfr⟩ := List.mem_flatMap.1 hr
  refine mem_holdings hf ?_
  cases f with
  | reclaim rest => exact List.mem_map_of_mem hfr
  | _ => exact absurd hfr List.not_mem_nil

theorem loose_eq (m : Run V) : (m.world.census m.holdings).loose = m.unlinked := by
  refine (List.map_filterMap ..).trans (filterMap_holdings (fun f => ?_) m)
  cases f with
  | enqueue e => obtain ⟨_, _ | _, _, _, _⟩ := e <;> rfl
  | dequeue d => obtain ⟨_, _ | _ | _, _⟩ := d <;> rfl
  | reclaim rest => exact Holding.filterMap_map_eq_nil .doomed _ (fun _ => rfl) rest
  | abandonRest bag => exact Holding.filterMap_map_eq_nil .unbagged _ (fun _ => rfl) bag.records
  | script | acting | answering | dropChain | leave | finishExit => rfl

theorem remnants_eq (m : Run V) : m.holdings.filterMap Holding.remnant? = m.remnants := by
  refine filterMap_holdings (fun f => ?_) m
  cases f with
  | enqueue e => obtain ⟨_, _ | _, _, _, _⟩ := e <;> rfl
  | dequeue d => obtain ⟨_, _ | _ | _, _⟩ := d <;> rfl
  | reclaim rest => exact Holding.filterMap_map_eq_nil .doomed _ (fun _ => rfl) rest
  | abandonRest bag => exact Holding.filterMap_map_eq_nil .unbagged _ (fun _ => rfl) bag.records
  | script | acting | answering | dropChain | leave | finishExit => rfl

/-- The step from `k` retires a node that it takes out of its queue. -/
structure RetiresNode (k : Run V) (r : Retired) : Prop where
  before : r ∉ k.world.retirements
  after : r ∈ k.step.world.retirements
  head : ∃ name q, k.world.queues.get? name = some q ∧ q.head = some r.address
  unlinked : ∀ name q, k.step.world.queues.get? name = some q →
    r.address ∉ k.step.world.memory.nodes.trail q.head

theorem Reachable.retired (hm : m.Reachable) : ∀ r ∈ m.world.retirements,
    m.world.IsRecord r.address ∨
      ∃ k : Run V, k.Reachable ∧ k.RetiresNode r ∧ Reaches (fun _ => True) k.step m := by
  induction hm with
  | refl => exact fun r hr => absurd hr List.not_mem_nil
  | @step n hn _ ih =>
    have hn : n.Reachable := hn
    have hstep : n.step.Reachable := .step hn trivial
    have hkept {a : Address} (ha : n.world.IsRecord a) : n.step.world.IsRecord a :=
      n.step_effects.induct (P := fun w _ => w.IsRecord a) (fun _ _ _ _ e => e.isRecord) ha
    intro r hr
    by_cases hold : r ∈ n.world.retirements
    · rcases ih r hold with hrecord | ⟨k, hk, hretires, hreaches⟩
      · exact .inl (hkept hrecord)
      · exact .inr ⟨k, hk, hretires, .step hreaches trivial⟩
    · rcases n.step_retirements r hr with hmem | hrecord | hhead
      · exact absurd hmem hold
      · exact .inl (hkept hrecord)
      · refine .inr ⟨n, hn, ⟨hold, hr, hhead, fun name q hq hmem => ?_⟩, .refl trivial⟩
        obtain ⟨l, hpath, hfree⟩ := hstep.chain_unretired (start_of_queue hq)
        rw [hpath.trail_eq] at hmem
        exact hfree _ hmem (List.mem_map_of_mem hr)
  | @next n i hn ho hp _ ih =>
    intro r hr
    rw [World.retirements_begin] at hr
    rcases ih r hr with hrecord | ⟨k, hk, hretires, hreaches⟩
    · refine .inl ?_
      exact (begin_effects n.world i False {}).induct (P := fun w _ => w.IsRecord r.address)
        (fun _ _ _ _ e => e.isRecord) hrecord
    · exact .inr ⟨k, hk, hretires, .next i hreaches ho hp trivial⟩

/-- No operation on a queue, and no end of a queue, comes to a node that was reclaimed: the chains
are whole and hold nothing that was retired, a node is retired once, by the step that takes it out
of its queue, and the node of a suspended attempt is neither reclaimed nor about to be. -/
theorem Reachable.nodes_unreclaimed (hm : m.Reachable) :
    (∀ name q, m.world.queues.get? name = some q → ∃ l, Nodes.Path m.world.memory.nodes q.head l ∧
      ∀ a ∈ l, a ∉ m.world.retirements.map (·.address)) ∧
    (∀ x ∈ m.remnants, ∃ l, Nodes.Path m.world.memory.nodes x.2 l ∧
      ∀ a ∈ l, a ∉ m.world.retirements.map (·.address)) ∧
    (m.world.retirements.map (·.address)).Nodup ∧
    (∀ r ∈ m.world.retirements, r.address ∈ m.world.allocations →
      ∃ k : Run V, k.Reachable ∧ k.RetiresNode r ∧ Reaches (fun _ => True) k.step m) ∧
    (∀ a ∈ m.unlinked, (m.world.memory.nodes.get? a).isSome = true ∧
      a ∉ m.remainders.map (·.address)) ∧
    (∀ a, (m.world.memory.nodes.get? a).isSome = true →
      a ∉ m.world.reclamations.map (·.address)) ∧
    ∀ a, m.control ≠ .dangling a := by
  have hsound := hm.sound
  refine ⟨fun name q hq => hm.chain_unretired (start_of_queue hq), fun x hx => ?_,
    hsound.nodup_retirements, fun r hr ha => ?_, fun a ha => ?_, ?_, Control.ne_dangling hm.present⟩
  · refine hm.chain_unretired ?_
    rw [World.starts_eq, World.chains, m.remnants_eq]
    exact List.mem_map_of_mem (List.mem_append_right _ hx)
  · exact (hm.retired r hr).resolve_left fun hrecord => (hm.cellsApart.named r.address hrecord).2 ha
  · rw [← m.loose_eq] at ha
    refine ⟨hsound.census.unclaimed a ha, fun hrest => ?_⟩
    obtain ⟨x, hx, rfl⟩ := List.mem_map.1 ha
    obtain ⟨r, hr, hrx⟩ := List.mem_map.1 hrest
    exact (hsound.guarded x hx).2 (Holding.mem_doomed.2 ⟨r, doomed_of_remainders hr, hrx⟩)
  · intro a ha hmem
    obtain ⟨r, hr, rfl⟩ := List.mem_map.1 hmem
    exact hm.cellsApart.gone r hr (.inr ha)

/-- The scan for which the attempt is suspended was made by the retirement of the node that it has
unlinked. All that was retired before is reclaimed, and this node is not. -/
theorem nested_unreclaimed :
    nested.Reachable ∧ nested.unlinked = [3] ∧
      nested.world.retirements.map (·.address) = [3, 5, 2, 1] ∧
      nested.world.reclamations.map (·.address) = [5, 2, 1] ∧
      (∀ a ∈ nested.unlinked, (nested.world.memory.nodes.get? a).isSome = true ∧
        a ∉ nested.remainders.map (·.address)) ∧
      ∀ a, nested.control ≠ .dangling a := by
  have hm := nested_calmly.reachable
  obtain ⟨-, -, -, -, hunlinked, -, hpresent⟩ := hm.nodes_unreclaimed
  exact ⟨hm, by decide +kernel, by decide +kernel, by decide +kernel, hunlinked, hpresent⟩

end Run
end Reclaim
