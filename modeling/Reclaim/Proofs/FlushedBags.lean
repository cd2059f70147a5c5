import Reclaim.Proofs.ThreadExits

set_option autoImplicit false

namespace Reclaim

def Registry.announces (g : Registry) (a : Address) : Bool :=
  g.records.any fun h => h.target == some a

/-- A scan collects what is announced, by active records or not. -/
theorem Registry.announces_iff {g : Registry} {a : Address} :
    g.announces a = true ↔ a ∈ g.protectedAddresses := by
  rw [mem_protectedAddresses, announces, Array.any_eq_true']
  constructor
  · rintro ⟨h, hmem, ha⟩
    obtain ⟨i, hi, rfl⟩ := Array.mem_iff_getElem.1 hmem
    exact ⟨i, by rw [target, Array.getElem?_eq_getElem hi]; exact beq_iff_eq.1 ha⟩
  · rintro ⟨i, hi⟩
    obtain ⟨h, hget, ha⟩ := Option.bind_eq_some_iff.1 hi
    exact ⟨h, Array.mem_of_getElem? hget, beq_iff_eq.2 ha⟩

theorem Domain.protects_eq (d : Domain) (r : Retired) :
    d.protects r = d.registry.announces r.address :=
  Bool.eq_iff_iff.2 (protects_iff.trans Registry.announces_iff.symm)

namespace Bag

theorem eq_of_records {b b' : Bag} (hrecords : b.records = b'.records)
    (hcapacity : b.capacity = b'.capacity) : b = b' := by
  obtain ⟨content, capacity, fits⟩ := b
  obtain ⟨content', capacity', fits'⟩ := b'
  obtain rfl : content = content' := Array.toList_inj.1 hrecords
  obtain rfl : capacity = capacity' := hcapacity
  rfl

/-- Nothing is drained from a bag that the snapshot covers. -/
theorem drainUnprotected_of_covered {b : Bag} {seen : Snapshot}
    (h : ∀ r ∈ b.records, seen.covers r.address = true) (reclaimable : List Retired) :
    b.drainUnprotected seen reclaimable = (b, reclaimable) := by
  have hrecords := b.drainUnprotected_records seen reclaimable
  have hsnd := b.drainUnprotected_snd seen reclaimable
  rw [separate_of_all h] at hrecords hsnd
  exact Prod.ext (eq_of_records hrecords rfl) (hsnd.trans (List.append_nil _))

end Bag

namespace Context

/-- What a scan has seen before makes no difference. -/
theorem flush_lastScan (c : Context) (d : Domain) (seen : Snapshot) :
    ({ c with lastScan := seen }.flush d).1 = (c.flush d).1 ∧
      ({ c with lastScan := seen }.flush d).2.1.bag = (c.flush d).2.1.bag ∧
      ({ c with lastScan := seen }.flush d).2.2 = (c.flush d).2.2 := by
  simp only [flush, adopt_eq]
  split <;> exact ⟨rfl, rfl, rfl⟩

theorem domain_flush (c : Context) (d : Domain) :
    (c.flush d).2.2 = { d with abandoned := {} } := by
  simp only [flush, adopt_eq]
  split <;> rfl

/-- With nothing to adopt and nothing unprotected in its bag a thread flushes in vain. -/
theorem flush_of_protected {c : Context} {d : Domain} (hbags : d.abandoned.bags = [])
    (h : ∀ r ∈ c.bag.records, r.address ∈ d.registry.protectedAddresses) :
    ∃ c', c.flush d = ([], c', d) ∧ c'.bag = c.bag := by
  have hadopt : c.adopt d = (c, d) := by
    obtain ⟨installed, registry, bags⟩ := d
    obtain rfl : bags = {} := congrArg Abandoned.mk hbags
    exact c.adopt_eq _
  rw [flush, hadopt]
  dsimp only
  split
  · exact ⟨c, rfl, rfl⟩
  · have hdrain := Bag.drainUnprotected_of_covered
      (fun r hr => (Snapshot.covers_ofList _ _).2 (h r hr)) []
    rw [scan, hdrain]
    exact ⟨_, rfl, rfl⟩

/-- A flush hands out the records of the bag and of all abandoned bags whose address no hazard
record announces, and leaves the others in the bag. Nothing is abandoned afterwards, and the
registry is as it was. What the last scan has seen does not count. A second flush hands out nothing
and leaves the bag as it is. -/
theorem flush_exact (c : Context) (d : Domain) :
    ∃ rs c' d', c.flush d = (rs, c', d') ∧
      rs.Perm ((c.bag.records ++ d.abandoned.records).filter
        fun r => !d.registry.announces r.address) ∧
      c'.bag.records.Perm ((c.bag.records ++ d.abandoned.records).filter
        fun r => d.registry.announces r.address) ∧
      d'.abandoned.bags = [] ∧ d'.registry = d.registry ∧ d'.installed = d.installed ∧
      (∀ seen, ∃ c₁, { c with lastScan := seen }.flush d = (rs, c₁, d') ∧ c₁.bag = c'.bag) ∧
      ∃ c₂, c'.flush d' = ([], c₂, d') ∧ c₂.bag = c'.bag := by
  have hparts := c.flush_parts d
  have hdomain := c.domain_flush d
  have hkept := c.flush_kept d
  have hseen := c.flush_lastScan d
  rw [show d.protects = fun r => d.registry.announces r.address from funext d.protects_eq] at hparts
  rcases hflush : c.flush d with ⟨rs, c', d'⟩
  rw [hflush] at hparts hkept hseen hdomain
  obtain rfl : d' = { d with abandoned := {} } := hdomain
  refine ⟨rs, c', _, rfl, hparts.1, hparts.2, rfl, rfl, rfl, fun seen => ?_, ?_⟩
  · obtain ⟨hrs, hbag, hd⟩ := hseen seen
    exact ⟨({ c with lastScan := seen }.flush d).2.1, Prod.ext hrs (Prod.ext rfl hd), hbag⟩
  · exact flush_of_protected rfl hkept

end Context
end Reclaim
