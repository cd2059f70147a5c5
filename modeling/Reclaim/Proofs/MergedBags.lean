import Reclaim.Abandoned

set_option autoImplicit false

namespace Reclaim

namespace Bag

def room (b : Bag) : Nat := b.capacity - b.size

/-- The list of `other` is kept, and has room for what is appended to it. -/
theorem merge_of_lt {b other : Bag} (h : b.capacity < other.room) :
    b.merge other = other.append b.content ∧
      (other.append b.content).capacity = other.capacity := by
  refine ⟨if_pos h, ?_⟩
  have hfits := b.fits
  have hroom : other.content.size + b.content.size ≤ other.capacity := by
    simp only [room, size] at h
    omega
  exact if_pos hroom

theorem merge_of_le {b other : Bag} (h : other.room ≤ b.capacity) :
    b.merge other = b.append other.content :=
  if_neg (Nat.not_lt.2 h)

theorem capacity_le_append (b : Bag) (xs : Array Retired) : b.capacity ≤ (b.append xs).capacity :=
  capacity_le_grown _ _

theorem capacity_le_merge (b other : Bag) : b.capacity ≤ (b.merge other).capacity := by
  by_cases h : b.capacity < other.room
  · obtain ⟨hmerge, hcapacity⟩ := merge_of_lt h
    rw [hmerge, hcapacity]
    exact Nat.le_of_lt (Nat.lt_of_lt_of_le h (Nat.sub_le _ _))
  · rw [merge_of_le (Nat.not_lt.1 h)]
    exact b.capacity_le_append _

theorem room_le_merge (b other : Bag) : other.room ≤ (b.merge other).capacity := by
  by_cases h : b.capacity < other.room
  · obtain ⟨hmerge, hcapacity⟩ := merge_of_lt h
    rw [hmerge, hcapacity]
    exact Nat.sub_le _ _
  · exact Nat.le_trans (Nat.not_lt.1 h) (b.capacity_le_merge other)

/-- The records of bags, one bag after the other, and those of one more bag at one of the ends. -/
theorem records_merge (b other : Bag) {order : List Bag} (hb : b.records = order.flatMap records) :
    ∃ order' : List Bag, order'.Perm (other :: order) ∧
      (b.merge other).records = order'.flatMap records := by
  by_cases h : b.capacity < other.room
  · refine ⟨other :: order, .refl _, ?_⟩
    rw [(merge_of_lt h).1, records_append, List.flatMap_cons, ← hb]
    rfl
  · refine ⟨order ++ [other], List.perm_append_singleton other order, ?_⟩
    rw [merge_of_le (Nat.not_lt.1 h), records_append, List.flatMap_append, ← hb, List.flatMap_cons,
      List.flatMap_nil, List.append_nil]
    rfl

end Bag

namespace Abandoned

theorem records_foldl_merge (rest : List Bag) (b : Bag) {order : List Bag}
    (hb : b.records = order.flatMap Bag.records) :
    ∃ order' : List Bag, order'.Perm (order ++ rest) ∧
      (rest.foldl Bag.merge b).records = order'.flatMap Bag.records := by
  induction rest generalizing b order with
  | nil => exact ⟨order, by rw [List.append_nil], hb⟩
  | cons c rest ih =>
    obtain ⟨order₁, hperm₁, hrecords₁⟩ := b.records_merge c hb
    obtain ⟨order', hperm, hrecords⟩ := ih (b.merge c) hrecords₁
    exact ⟨order', hperm.trans ((hperm₁.append_right rest).trans List.perm_middle.symm), hrecords⟩

/-- The capacity only grows on the way, so it is not less than that of any list met on it. -/
theorem capacity_foldl_merge (rest : List Bag) (b : Bag) :
    b.capacity ≤ (rest.foldl Bag.merge b).capacity ∧
      ∀ c ∈ rest, c.room ≤ (rest.foldl Bag.merge b).capacity := by
  induction rest generalizing b with
  | nil => exact ⟨Nat.le_refl _, nofun⟩
  | cons c rest ih =>
    obtain ⟨hcapacity, hrooms⟩ := ih (b.merge c)
    refine ⟨Nat.le_trans (b.capacity_le_merge c) hcapacity, fun x hx => ?_⟩
    rcases List.mem_cons.1 hx with rfl | hx
    · exact Nat.le_trans (b.room_le_merge x) hcapacity
    · exact hrooms x hx

/-- Taking the abandoned bags leaves none, and gives one bag with the records of all of them, bag by
bag. Its capacity is at least that of the newest bag, and at least the room of every bag. A merge
that keeps the list of the bag merged in does not have to make it larger. Where there are no bags,
there is nothing to take. -/
theorem takeAndMerge_blocks (newest : Bag) (older : List Bag) :
    (∃ (b : Bag) (order : List Bag), takeAndMerge ⟨newest :: older⟩ = (some b, {}) ∧
      order.Perm (newest :: older) ∧ b.records = order.flatMap Bag.records ∧
      newest.capacity ≤ b.capacity ∧ ∀ c ∈ newest :: older, c.room ≤ b.capacity) ∧
    (∀ b other : Bag, b.capacity < other.room → b.merge other = other.append b.content ∧
      (other.append b.content).capacity = other.capacity) ∧
    takeAndMerge {} = (none, {}) := by
  refine ⟨?_, fun _ _ => Bag.merge_of_lt, rfl⟩
  have hnewest : newest.records = [newest].flatMap Bag.records :=
    (List.flatMap_singleton ..).symm
  obtain ⟨order, hperm, hrecords⟩ := records_foldl_merge older newest hnewest
  obtain ⟨hcapacity, hrooms⟩ := capacity_foldl_merge older newest
  refine ⟨_, order, rfl, hperm, hrecords, hcapacity, fun c hc => ?_⟩
  rcases List.mem_cons.1 hc with rfl | hc
  · exact Nat.le_trans (Nat.sub_le _ _) hcapacity
  · exact hrooms c hc

def fullBag : Bag := ⟨#[⟨1, .boxed⟩, ⟨2, .boxed⟩], 2, by decide⟩

def roomyBag : Bag := ⟨#[⟨3, .custom⟩], 8, by decide⟩

theorem fullBag_blocks :
    fullBag.capacity < roomyBag.room ∧
      fullBag.merge roomyBag = roomyBag.append fullBag.content ∧
      (roomyBag.append fullBag.content).capacity = 8 ∧
      ∃ b, takeAndMerge ⟨[fullBag, roomyBag]⟩ = (some b, {}) ∧ b.size = 3 ∧ 7 ≤ b.capacity := by
  obtain ⟨⟨b, order, htake, hperm, hrecords, -, hrooms⟩, hswap, -⟩ :=
    takeAndMerge_blocks fullBag [roomyBag]
  have hlt : fullBag.capacity < roomyBag.room := by decide
  have hsize : b.records.length = 3 := by
    rw [hrecords, (hperm.flatMap_right Bag.records).length_eq]
    rfl
  exact ⟨hlt, (hswap fullBag roomyBag hlt).1, (hswap fullBag roomyBag hlt).2, b, htake, hsize,
    hrooms roomyBag (by simp)⟩

end Abandoned
end Reclaim
