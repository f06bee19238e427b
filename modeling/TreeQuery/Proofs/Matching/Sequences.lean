import TreeQuery.Proofs.Matching.Slices

/-! Selectors on arrays. All children, elements at given positions and slices are found in three
different ways, which agree wherever they ask for the same items. A slice by single steps takes a
range of positions, so that slices which meet at a limit can be joined, and a position is a slice
of its own. -/

namespace TreeQuery

namespace Positions

/-! ### Walks by single steps -/

theorem upTo_one {bound i : Int} (hi : 0 ≤ i) :
    upTo bound 1 i = List.range' i.toNat (bound - i).toNat := by
  apply List.ext_getElem?
  intro k
  rw [getElem?_upTo Int.one_pos, Int.mul_one]
  by_cases hk : i + k < bound
  · rw [if_pos hk, List.getElem?_range' (by omega), Int.toNat_add hi (by omega)]
    simp
  · rw [if_neg hk, List.getElem?_eq_none]
    rw [List.length_range']
    omega

theorem downTo_one {bound i : Int} (hbound : -1 ≤ bound) :
    downTo bound (-1) i = (List.range' (bound + 1).toNat (i - bound).toNat).reverse := by
  induction i using downTo.induct bound (-1) with
  | case1 i h ih =>
    have hrest : (i + -1 - bound).toNat + 1 = (i - bound).toNat := by omega
    have hlast : (bound + 1).toNat + (i + -1 - bound).toNat = i.toNat := by omega
    rw [downTo, if_pos h, ih, ← hrest, List.range'_1_concat, List.reverse_append, hlast]
    rfl
  | case2 i h =>
    have hnone : (i - bound).toNat = 0 := by omega
    rw [downTo, if_neg h, hnone]
    rfl

/-! ### Slices by single steps -/

/-- A slice by single steps takes every position from its first one on that is below its limit. -/
theorem slice_one (length : Nat) (start stop : Option Int) :
    slice length start stop none =
      List.range' (limit 0 length length 0 start).toNat
        (limit 0 length length length stop - limit 0 length length 0 start).toNat := by
  rw [slice_forward (by decide)]
  exact upTo_one (le_limit (Int.le_refl 0) start)

theorem slice_whole (length : Nat) : slice length none none none = List.range length := by
  rw [slice_one, List.range_eq_range']
  simp [limit]

theorem slice_whole_backward (length : Nat) :
    slice length none none (some (-1)) = (List.range length).reverse := by
  have hcount : ((length : Int) - 1 - -1).toNat = length := by omega
  rw [slice_backward (by decide), List.range_eq_range']
  simp only [limit, Option.elim_none, Option.getD_some]
  rw [downTo_one (Int.le_refl _), hcount]
  rfl

/-- Where one slice stops, the other starts. -/
theorem slice_append (length : Nat) (k : Int) :
    slice length none (some k) none ++ slice length (some k) none none = List.range length := by
  have hlow : 0 ≤ clamp 0 length (fromEnd length k) := le_clamp ..
  have hhigh : clamp 0 length (fromEnd length k) ≤ length :=
    Int.max_le.mpr ⟨by omega, Int.min_le_right ..⟩
  rw [slice_one, slice_one, List.range_eq_range']
  simp only [limit, Option.elim_none, Option.elim_some]
  generalize clamp 0 length (fromEnd length k) = c at hlow hhigh
  have hmeet : c.toNat = 0 + (c - 0).toNat := by omega
  have hcount : (c - 0).toNat + (length - c).toNat = length := by omega
  rw [hmeet, Int.toNat_zero, List.range'_append_1, hcount]

/-! ### Single positions -/

theorem single?_ofNat {length i : Nat} (hi : i < length) : single? length i = some i := by
  have hfrom : fromEnd length i = i := if_neg (by omega)
  have hin : (0 : Int) ≤ i ∧ (i : Int) < length := by omega
  simp only [single?, hfrom, if_pos hin, Int.toNat_natCast]

theorem filterMap_single?_range (length : Nat) :
    ((List.range length).map Int.ofNat).filterMap (single? length) = List.range length := by
  rw [List.filterMap_map]
  exact (List.filterMap_congr fun i hi => single?_ofNat (List.mem_range.mp hi)).trans
    List.filterMap_some

/-- A position outside the array leaves nothing between the two limits. -/
theorem toList_single? (length : Nat) (i : Int) :
    (single? length i).toList =
      List.range' (clamp 0 length (fromEnd length i)).toNat
        (clamp 0 length (fromEnd length i + 1) - clamp 0 length (fromEnd length i)).toNat := by
  unfold single?
  generalize fromEnd length i = j
  by_cases hj : 0 ≤ j ∧ j < length
  · have hstart : clamp 0 length j = j := by
      unfold clamp
      omega
    have hcount : (clamp 0 length (j + 1) - j).toNat = 1 := by
      unfold clamp
      omega
    rw [hstart, hcount]
    simp [hj]
  · -- both limits are moved to the same end of the array
    have hcount : (clamp 0 length (j + 1) - clamp 0 length j).toNat = 0 := by
      unfold clamp
      omega
    rw [hcount]
    simp [hj]

theorem single?_eq_slice (length : Nat) {i : Int} (hi : i ≠ -1) :
    (single? length i).toList = slice length (some i) (some (i + 1)) none := by
  have hnext : fromEnd length (i + 1) = fromEnd length i + 1 := by
    unfold fromEnd
    omega
  rw [toList_single?, slice_one, ← hnext]
  rfl

theorem single?_last (length : Nat) :
    (single? length (-1)).toList = slice length (some (-1)) none none := by
  have hend : clamp 0 length (fromEnd length (-1) + 1) = length := by
    simp only [clamp, fromEnd]
    omega
  rw [toList_single?, slice_one, hend]
  rfl

end Positions

/-- The children of an array are what it has at its positions. -/
theorem Value.children_array (items : List Value) : (array items).children =
    (array items).childrenAt ((List.range items.length).map .index) := by
  have hitems : items.zipIdx.map (fun c => (some c.1, c.2)) =
      (List.range items.length).map fun i => (items[i]?, i) := by
    apply List.ext_getElem
    · simp
    · intro i hi hi'
      simp
  have hpick := congrArg (List.filterMap fun c : Option Value × Nat =>
    (c.1.filter isPresent).map fun x => (Key.index c.2, x)) hitems
  simp only [List.filterMap_map] at hpick
  rw [children, childrenAt, List.filterMap_map, ← List.filterMap_eq_filter, List.filterMap_map]
  refine (List.filterMap_congr fun c _ => ?_).trans hpick
  simp [Option.guard, Option.filter]

namespace Step

/-- What is found at some positions of an array, in their order. -/
def itemsFound (items : List Value) (positions : List Nat) : List Match :=
  positions.filterMap fun i => (items[i]?.filter Value.isPresent).map fun x => ⟨[.index i], x⟩

section

variable (scopes : Scopes) (items : List Value)

theorem findAll_slice_items (start stop step : Option Int) :
    (slice start stop step).findAll scopes (.array items) =
      itemsFound items (Positions.slice items.length start stop step) :=
  Positions.findAll_slice_array start stop step scopes items

theorem findAll_elements_items (positions : List Int) :
    (elements positions).findAll scopes (.array items) =
      itemsFound items (positions.filterMap (Positions.single? items.length)) :=
  findAll_positions rfl (Search.elements_eq positions (.array items))

theorem findAll_all_items :
    (all false).findAll scopes (.array items) = itemsFound items (List.range items.length) :=
  findAll_positions rfl (Value.children_array items)

theorem findAll_slice_whole :
    (slice none none none).findAll scopes (.array items) =
      (all false).findAll scopes (.array items) := by
  rw [findAll_slice_items, findAll_all_items, Positions.slice_whole]

theorem findAll_elements_single (i : Int) :
    (elements [i]).findAll scopes (.array items) =
      itemsFound items (Positions.single? items.length i).toList := by
  rw [findAll_elements_items]
  cases h : Positions.single? items.length i <;> simp [h]

end

theorem findAll_elements_other (positions : List Int) (scopes : Scopes) {v : Value}
    (hv : v.items? = none) : (elements positions).findAll scopes v = [] := by
  rw [findAll_of_flat rfl, pick, Search.elements, hv]
  rfl

/-- On any array, the whole slice finds the present items in order, and so do all children and the
elements at all positions; the whole backward slice finds them in reverse. A slice up to any limit
and the slice from there on make up the whole one. An element is a slice of its own, which has no
limit if it is the last one. Where there is no array, neither elements nor slices are found. -/
theorem findAll_sequences (scopes : Scopes) :
    (∀ items : List Value,
      let found (step : Step) := step.findAll scopes (.array items)
      let whole := found (slice none none none)
      whole = (items.zipIdx.filter (·.1.isPresent)).map (fun c => ⟨[.index c.2], c.1⟩) ∧
      found (all false) = whole ∧
      found (elements ((List.range items.length).map Int.ofNat)) = whole ∧
      found (slice none none (some (-1))) = whole.reverse ∧
      (∀ k, found (slice none (some k) none) ++ found (slice (some k) none none) = whole) ∧
      (∀ i, i ≠ -1 → found (elements [i]) = found (slice (some i) (some (i + 1)) none)) ∧
      found (elements [-1]) = found (slice (some (-1)) none none)) ∧
    ∀ v, v.items? = none →
      (∀ positions, (elements positions).findAll scopes v = []) ∧
      ∀ start stop step, (slice start stop step).findAll scopes v = [] := by
  constructor
  · intro items found whole
    have hall : found (all false) = whole := (findAll_slice_whole scopes items).symm
    have hwhole : whole = itemsFound items (List.range items.length) :=
      hall.symm.trans (findAll_all_items scopes items)
    refine ⟨?_, hall, ?_, ?_, ?_, ?_, ?_⟩
    · rw [← hall]
      change (all false).findAll scopes (.array items) = _
      rw [findAll_of_flat rfl, pick, Value.children, List.filter_map, List.map_map]
      rfl
    · have h := findAll_elements_items scopes items ((List.range items.length).map Int.ofNat)
      rwa [Positions.filterMap_single?_range, ← hwhole] at h
    · rw [hwhole, itemsFound, ← List.filterMap_reverse, ← Positions.slice_whole_backward]
      exact findAll_slice_items scopes items none none (some (-1))
    · intro k
      rw [hwhole, ← Positions.slice_append items.length k, itemsFound, List.filterMap_append]
      exact congrArg₂ (· ++ ·) (findAll_slice_items ..) (findAll_slice_items ..)
    · intro i hi
      change (elements [i]).findAll .. = (slice ..).findAll ..
      rw [findAll_elements_single, findAll_slice_items, Positions.single?_eq_slice _ hi]
    · change (elements [-1]).findAll .. = (slice ..).findAll ..
      rw [findAll_elements_single, findAll_slice_items, Positions.single?_last]
  · intro v hv
    exact ⟨fun positions => findAll_elements_other positions scopes hv,
      fun start stop step => Positions.findAll_slice_other start stop step scopes hv⟩

/-- Two slices meet at an absent item, which neither of them finds; a position before the start of
the array is an empty slice; and a name that looks like a position is none. -/
theorem findAll_sequences_gap :
    let items : List Value := [.null, .absent, .bool true]
    (slice none (some (-2)) none).findAll [] (.array items) ++
      (slice (some (-2)) none none).findAll [] (.array items) =
        [⟨[.index 0], .null⟩, ⟨[.index 2], .bool true⟩] ∧
    (-4 : Int) ≠ -1 ∧
    (elements [-4]).findAll [] (.array items) =
      (slice (some (-4)) (some (-3)) none).findAll [] (.array items) ∧
    (Value.object [("0", .null)]).items? = none ∧
    (elements [0]).findAll [] (.object [("0", .null)]) = [] := by
  intro items
  obtain ⟨harray, hother⟩ := findAll_sequences []
  obtain ⟨hwhole, -, -, -, happend, hsingle, -⟩ := harray items
  refine ⟨(happend (-2)).trans hwhole, by decide, hsingle (-4) (by decide), rfl, ?_⟩
  exact (hother (.object [("0", .null)]) rfl).1 [0]

end Step

end TreeQuery
