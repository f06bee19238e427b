import Mathlib.Algebra.Group.Int.Defs
import TreeQuery.Json.Basic
import TreeQuery.Proofs.Matching.Distinct

/-! What slices take. A forward slice takes the positions from its first one on, one step apart,
that lie below its limit; a backward slice those above it. All the arithmetic that this takes stays
within 64 bits: limits are moved into the array before the walk begins, and a step that leads out
of 64 bits leads out of the array as well. -/

namespace TreeQuery

/-- A step that picks the items at some positions of an array finds those that are present. -/
theorem Step.findAll_positions {step : Step} {scopes : Scopes} {items : List Value}
    {positions : List Nat} (hflat : step.isDeep = false)
    (hpick : step.pick scopes (.array items) =
      (Value.array items).childrenAt (positions.map .index)) :
    step.findAll scopes (.array items) = positions.filterMap fun i =>
      (items[i]?.filter Value.isPresent).map fun x => ⟨[.index i], x⟩ := by
  rw [findAll_of_flat hflat, hpick, Value.childrenAt, List.filterMap_map, List.map_filterMap]
  simp only [Function.comp_def, Option.map_map]
  rfl

namespace Positions

/-! ### Walks -/

/-- The places of a forward walk are one step apart and below the bound. -/
theorem getElem?_upTo {bound step : Int} (hstep : 0 < step) (i : Int) (k : Nat) :
    (upTo bound step i)[k]? =
      if i + k * step < bound then some (i + k * step).toNat else none := by
  induction k generalizing i with
  | zero =>
    rw [upTo]
    by_cases hi : i < bound <;> simp [hstep, hi]
  | succ k ih =>
    have hnext : i + (k + 1 : Nat) * step = i + step + k * step := by
      rw [Int.natCast_succ, Int.add_mul, Int.one_mul]
      omega
    rw [upTo, hnext]
    by_cases hi : i < bound
    · rw [if_pos ⟨hstep, hi⟩, List.getElem?_cons_succ, ih]
    · have hmore : 0 ≤ k * step := Int.mul_nonneg (by omega) (by omega)
      rw [if_neg fun h => hi h.2, if_neg (by omega), List.getElem?_nil]

/-- The places of a backward walk are one step apart and above the bound. -/
theorem getElem?_downTo {bound step : Int} (hstep : step < 0) (i : Int) (k : Nat) :
    (downTo bound step i)[k]? =
      if bound < i + k * step then some (i + k * step).toNat else none := by
  induction k generalizing i with
  | zero =>
    rw [downTo]
    by_cases hi : bound < i <;> simp [hstep, hi]
  | succ k ih =>
    have hnext : i + (k + 1 : Nat) * step = i + step + k * step := by
      rw [Int.natCast_succ, Int.add_mul, Int.one_mul]
      omega
    rw [downTo, hnext]
    by_cases hi : bound < i
    · rw [if_pos ⟨hstep, hi⟩, List.getElem?_cons_succ, ih]
    · have hmore : k * step ≤ 0 := Int.mul_nonpos_of_nonneg_of_nonpos (by omega) (by omega)
      rw [if_neg fun h => hi h.2, if_neg (by omega), List.getElem?_nil]

/-! ### Limits -/

/-- Where a limit of a slice lies, between `low` and `high`; a limit that is not given is at
`default`. -/
def limit (low high length default : Int) (given : Option Int) : Int :=
  given.elim default fun i => clamp low high (fromEnd length i)

theorem le_limit {low high length default : Int} (h : low ≤ default) (given : Option Int) :
    low ≤ limit low high length default given := by
  cases given with
  | none => exact h
  | some i => exact le_clamp ..

theorem limit_le {low high length default : Int} (hle : low ≤ high) (h : default ≤ high)
    (given : Option Int) : limit low high length default given ≤ high := by
  cases given with
  | none => exact h
  | some i => exact Int.max_le.mpr ⟨hle, Int.min_le_right ..⟩

/-- A forward slice starts at the first position by default. -/
theorem limit_getD (length : Nat) (start : Option Int) :
    limit 0 length length 0 (some (start.getD 0)) = limit 0 length length 0 start := by
  cases start with
  | none =>
    simp only [limit, clamp, fromEnd, Option.getD_none, Option.elim_none, Option.elim_some]
    omega
  | some i => rfl

theorem slice_forward {length : Nat} {start stop step : Option Int} (hstep : 0 < step.getD 1) :
    slice length start stop step = upTo (limit 0 length length length stop) (step.getD 1)
      (limit 0 length length 0 start) := by
  have hstop : (stop.map fun i => clamp 0 length (fromEnd length i)).getD length =
      limit 0 length length length stop := by
    cases stop <;> rfl
  simp only [slice, if_pos hstep, hstop, ← limit_getD length start]
  rfl

theorem slice_backward {length : Nat} {start stop step : Option Int} (hstep : step.getD 1 < 0) :
    slice length start stop step = downTo (limit (-1) (length - 1) length (-1) stop) (step.getD 1)
      (limit (-1) (length - 1) length (length - 1) start) := by
  have hlimit : ∀ (default : Int) (given : Option Int),
      (given.map fun i => clamp (-1) (length - 1) (fromEnd length i)).getD default =
        limit (-1) (length - 1) length default given := by
    intro default given
    cases given <;> rfl
  simp only [slice, if_neg (by omega : ¬0 < step.getD 1), if_pos hstep, hlimit]

theorem slice_zero {length : Nat} {start stop step : Option Int} (hstep : step.getD 1 = 0) :
    slice length start stop step = [] := by
  simp [slice, hstep]

/-- A slice takes only positions within the array. -/
theorem lt_of_mem_slice {length : Nat} {start stop step : Option Int} {i : Nat}
    (hi : i ∈ slice length start stop step) : i < length := by
  obtain ⟨k, hk⟩ := List.mem_iff_getElem?.mp hi
  rcases Int.lt_trichotomy (step.getD 1) 0 with hstep | hstep | hstep
  · rw [slice_backward hstep, getElem?_downTo hstep] at hk
    have hfirst : limit (-1) (length - 1) length (length - 1) start ≤ length - 1 :=
      limit_le (by omega) (Int.le_refl _) start
    have hdown : k * step.getD 1 ≤ 0 := Int.mul_nonpos_of_nonneg_of_nonpos (by omega) (by omega)
    have hbound : -1 ≤ limit (-1) (length - 1) length (-1) stop := le_limit (Int.le_refl (-1)) stop
    simp only [Option.ite_none_right_eq_some, Option.some.injEq] at hk
    omega
  · rw [slice_zero hstep] at hi
    cases hi
  · rw [slice_forward hstep, getElem?_upTo hstep] at hk
    have hbound : limit 0 length length length stop ≤ length :=
      limit_le (by omega) (Int.le_refl _) stop
    have hfirst : 0 ≤ limit 0 length length 0 start := le_limit (Int.le_refl 0) start
    have hup : 0 ≤ k * step.getD 1 := Int.mul_nonneg (by omega) (by omega)
    simp only [Option.ite_none_right_eq_some, Option.some.injEq] at hk
    omega

/-! ### Arithmetic on words -/

/-- The result of an operation on 64-bit words with a sign; none if it does not fit one. -/
def word? (i : Int) : Option Int := if Json.fitsSigned i then some i else none

/-- A position counted from the end when it is negative, computed on words. -/
def fromEnd? (length index : Int) : Option Int :=
  if index < 0 then word? (length + index) else some index

/-- The nearest number between `low` and `high`, which have to be in order. -/
def clamp? (low high i : Int) : Option Int := if low ≤ high then some (clamp low high i) else none

/-- `limit`, computed on words. -/
def limit? (low high length default : Int) (given : Option Int) : Option Int :=
  given.elim (some default) fun i => (fromEnd? length i).bind (clamp? low high)

/-- `upTo` on words. A place that is no word ends the walk. -/
def upToWords (bound step i : Int) : List Nat :=
  if 0 < step ∧ i < bound then
    i.toNat :: if Json.fitsSigned (i + step) then upToWords bound step (i + step) else []
  else []
termination_by (bound - i).toNat

/-- `downTo` on words. A place that is no word ends the walk. -/
def downToWords (bound step i : Int) : List Nat :=
  if step < 0 ∧ bound < i then
    i.toNat :: if Json.fitsSigned (i + step) then downToWords bound step (i + step) else []
  else []
termination_by (i - bound).toNat

/-- `slice`, computed on words; none if an operation on the way does not fit one. -/
def slice? (length : Nat) (start stop step : Option Int) : Option (List Nat) := do
  let n ← word? length
  let step := step.getD 1
  if 0 < step then
    let low ← limit? 0 n n 0 (some (start.getD 0))
    let high ← limit? 0 n n n stop
    return upToWords high step low
  else if step < 0 then
    let last ← word? (n - 1)
    let high ← limit? (-1) last n last start
    let low ← limit? (-1) last n (-1) stop
    return downToWords low step high
  else return []

theorem fitsSigned_iff (i : Int) : Json.fitsSigned i = true ↔ -2 ^ 63 ≤ i ∧ i < 2 ^ 63 := by
  simp [Json.fitsSigned]

theorem word?_eq {i : Int} (hlow : -2 ^ 63 ≤ i) (hhigh : i < 2 ^ 63) : word? i = some i :=
  if_pos ((fitsSigned_iff i).mpr ⟨hlow, hhigh⟩)

theorem fromEnd?_eq {length index : Int} (hlow : 0 ≤ length) (hhigh : length < 2 ^ 63)
    (hindex : -2 ^ 63 ≤ index) : fromEnd? length index = some (fromEnd length index) := by
  unfold fromEnd? fromEnd
  split
  · exact word?_eq (by omega) (by omega)
  · rfl

theorem limit?_eq {low high length default : Int} {given : Option Int} (hle : low ≤ high)
    (hlow : 0 ≤ length) (hhigh : length < 2 ^ 63)
    (hgiven : ∀ i ∈ given, Json.fitsSigned i = true) :
    limit? low high length default given = some (limit low high length default given) := by
  cases given with
  | none => rfl
  | some i =>
    have hi := (fitsSigned_iff i).mp (hgiven i rfl)
    simp only [limit?, limit, Option.elim_some, fromEnd?_eq hlow hhigh hi.1, Option.bind_some,
      clamp?, if_pos hle]

/-- A forward step out of the words is a step over the bound. -/
theorem upToWords_eq {bound i : Int} (step : Int) (hi : 0 ≤ i) (hbound : bound < 2 ^ 63) :
    upToWords bound step i = upTo bound step i := by
  induction i using upTo.induct bound step with
  | case1 i h ih =>
    rw [upToWords, upTo, if_pos h, if_pos h]
    by_cases hfits : Json.fitsSigned (i + step) = true
    · rw [if_pos hfits, ih (by omega)]
    · have hout := (fitsSigned_iff (i + step)).not.mp hfits
      have hend : upTo bound step (i + step) = [] := by
        rw [upTo, if_neg (by omega)]
      rw [if_neg hfits, hend]
  | case2 i h => rw [upToWords, upTo, if_neg h, if_neg h]

/-- A backward step out of the words is a step over the bound. -/
theorem downToWords_eq {bound i : Int} (step : Int) (hi : i < 2 ^ 63) (hbound : -1 ≤ bound) :
    downToWords bound step i = downTo bound step i := by
  induction i using downTo.induct bound step with
  | case1 i h ih =>
    rw [downToWords, downTo, if_pos h, if_pos h]
    by_cases hfits : Json.fitsSigned (i + step) = true
    · rw [if_pos hfits, ih (by omega)]
    · have hout := (fitsSigned_iff (i + step)).not.mp hfits
      have hend : downTo bound step (i + step) = [] := by
        rw [downTo, if_neg (by omega)]
      rw [if_neg hfits, hend]
  | case2 i h => rw [downToWords, downTo, if_neg h, if_neg h]

/-- No operation on the way to a slice leaves the words. -/
theorem slice?_eq {length : Nat} {start stop : Option Int} (step : Option Int)
    (hlength : Json.fitsSigned length = true) (hstart : ∀ i ∈ start, Json.fitsSigned i = true)
    (hstop : ∀ i ∈ stop, Json.fitsSigned i = true) :
    slice? length start stop step = some (slice length start stop step) := by
  obtain ⟨-, hhigh⟩ := (fitsSigned_iff _).mp hlength
  have hlow : (0 : Int) ≤ length := by omega
  have hword : word? length = some (length : Int) := word?_eq (by omega) hhigh
  rcases Int.lt_trichotomy (step.getD 1) 0 with hstep | hstep | hstep
  · have hlast : word? (length - 1) = some ((length : Int) - 1) := word?_eq (by omega) (by omega)
    have hle : (-1 : Int) ≤ length - 1 := by omega
    have hfirst : limit (-1) (length - 1) length (length - 1) start ≤ length - 1 :=
      limit_le hle (Int.le_refl _) start
    have hbound : -1 ≤ limit (-1) (length - 1) length (-1) stop := le_limit (Int.le_refl (-1)) stop
    have hwalk := downToWords_eq (step.getD 1) (Int.lt_of_le_of_lt hfirst (by omega)) hbound
    simp only [slice?, hword, hlast, limit?_eq hle hlow hhigh hstart,
      limit?_eq hle hlow hhigh hstop, Option.bind_eq_bind, Option.bind_some, Option.pure_def,
      if_pos hstep, if_neg (by omega : ¬0 < step.getD 1), slice_backward hstep, hwalk]
  · simp [slice?, slice_zero hstep, hword, hstep]
  · have hgiven : ∀ i ∈ some (start.getD 0), Json.fitsSigned i = true := by
      rintro i ⟨rfl⟩
      cases start with
      | none => rfl
      | some i => exact hstart i rfl
    have hfirst : 0 ≤ limit 0 length length 0 start := le_limit (Int.le_refl 0) start
    have hbound : limit 0 length length length stop ≤ length := limit_le hlow (Int.le_refl _) stop
    have hwalk := upToWords_eq (step.getD 1) hfirst (Int.lt_of_le_of_lt hbound hhigh)
    simp only [slice?, hword, limit?_eq hlow hlow hhigh hgiven, limit?_eq hlow hlow hhigh hstop,
      limit_getD, Option.bind_eq_bind, Option.bind_some, Option.pure_def, if_pos hstep,
      slice_forward hstep, hwalk]

/-! ### Slices -/

theorem findAll_slice_array (start stop step : Option Int) (scopes : Scopes) (items : List Value) :
    (Step.slice start stop step).findAll scopes (.array items) =
      (slice items.length start stop step).filterMap fun i =>
        (items[i]?.filter Value.isPresent).map fun x => ⟨[.index i], x⟩ :=
  Step.findAll_positions rfl (Search.slice_eq start stop step (.array items))

theorem findAll_slice_other (start stop step : Option Int) (scopes : Scopes) {v : Value}
    (hv : v.items? = none) : (Step.slice start stop step).findAll scopes v = [] := by
  rw [Step.findAll_of_flat rfl, Step.pick, Search.slice, hv]
  rfl

/-- A slice of any array, with any limits and any step, is computed without overflow. Forward it
takes the positions one step apart that lie below its limit, in ascending order, backward those
that lie above it, in descending order, and with a step of zero none. All of them are positions of
the array, and the slice has its present items there, in that order. -/
theorem slice_exact {length : Nat} {start stop : Option Int} (step : Option Int)
    (hlength : Json.fitsSigned length = true) (hstart : ∀ i ∈ start, Json.fitsSigned i = true)
    (hstop : ∀ i ∈ stop, Json.fitsSigned i = true) :
    let n : Int := length
    let d := step.getD 1
    let taken := slice length start stop step
    slice? length start stop step = some taken ∧
    (0 < d → taken.Pairwise (· < ·) ∧ ∀ k : Nat, taken[k]? =
      let i := limit 0 n n 0 start + k * d
      if i < limit 0 n n n stop then some i.toNat else none) ∧
    (d < 0 → taken.Pairwise (· > ·) ∧ ∀ k : Nat, taken[k]? =
      let i := limit (-1) (n - 1) n (n - 1) start + k * d
      if limit (-1) (n - 1) n (-1) stop < i then some i.toNat else none) ∧
    (d = 0 → taken = []) ∧
    (∀ i ∈ taken, i < length) ∧
    (∀ scopes items, items.length = length →
      (Step.slice start stop step).findAll scopes (.array items) = taken.filterMap fun i =>
        (items[i]?.filter Value.isPresent).map fun x => ⟨[.index i], x⟩) ∧
    ∀ scopes v, v.items? = none → (Step.slice start stop step).findAll scopes v = [] := by
  intro n d taken
  have hforward : 0 < d → taken = upTo (limit 0 n n n stop) d (limit 0 n n 0 start) :=
    slice_forward
  have hbackward : d < 0 → taken =
      downTo (limit (-1) (n - 1) n (-1) stop) d (limit (-1) (n - 1) n (n - 1) start) :=
    slice_backward
  refine ⟨slice?_eq step hlength hstart hstop, ?_, ?_, slice_zero, fun _ => lt_of_mem_slice, ?_,
    fun scopes v => findAll_slice_other start stop step scopes⟩
  · intro hd
    rw [hforward hd]
    exact ⟨pairwise_upTo (le_limit (Int.le_refl 0) start), getElem?_upTo hd _⟩
  · intro hd
    rw [hbackward hd]
    exact ⟨pairwise_downTo (le_limit (Int.le_refl (-1)) stop), getElem?_downTo hd _⟩
  · rintro scopes items rfl
    exact findAll_slice_array start stop step scopes items

/-- A backward slice between the ends of the words takes every other position, and a step that is as
long as words allow ends a slice at once. -/
theorem slice_exact_ends :
    let low : Int := -9223372036854775808
    let high : Int := 9223372036854775807
    slice? 4 (some high) (some low) (some (-2)) = some [3, 1] ∧
    slice? 4 (some (-3)) none (some high) = some [1] ∧
    slice? 4 (some (-3)) none (some low) = some [1] ∧
    ∀ scopes, (Step.slice (some high) (some low) (some (-2))).findAll scopes
      (.array [.null, .absent, .null, .bool true]) = [⟨[.index 3], .bool true⟩] := by
  intro low high
  have hevery : slice 4 (some high) (some low) (some (-2)) = [3, 1] := by decide +kernel
  have hforward : slice 4 (some (-3)) none (some high) = [1] := by decide +kernel
  have hbackward : slice 4 (some (-3)) none (some low) = [1] := by decide +kernel
  have ends := @slice_exact 4 (some high) (some low) (some (-2))
    (by decide) (by simp [high]; decide) (by simp [low]; decide)
  have up := @slice_exact 4 (some (-3)) none (some high)
    (by decide) (by simp; decide) (by simp)
  have down := @slice_exact 4 (some (-3)) none (some low)
    (by decide) (by simp; decide) (by simp)
  refine ⟨ends.1.trans (congrArg some hevery), up.1.trans (congrArg some hforward),
    down.1.trans (congrArg some hbackward), fun scopes => ?_⟩
  have hitems := ends.2.2.2.2.2.1 scopes [.null, .absent, .null, .bool true] rfl
  rw [hevery] at hitems
  exact hitems

end Positions

end TreeQuery
