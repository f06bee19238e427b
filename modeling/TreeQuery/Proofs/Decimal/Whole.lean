import TreeQuery.Decimal.Binary
import TreeQuery.Proofs.Decimal.Rounding

/-! Whole numbers in floating point. A whole number of at most 53 digits is converted without
rounding: shifted until it has 53 digits, it is the mantissa. Conversely, a floating point number
whose value is a whole number of at most 53 digits is what that number is converted to, up to the
sign of zero. -/

namespace TreeQuery.Decimal

open Float.Model (Format UnpackedFloat totalExponent)
open Float.Model.UnpackedFloat

/-! ### The fields of a word -/

theorem toNat_unpackExponent (w : BitVec Format.binary64.numBits) :
    (unpackExponent w).toNat = w.toNat / Nat.pow 2 52 % Nat.pow 2 11 := by
  rw [unpackExponent_def, BitVec.extractLsb'_toNat, Nat.shiftRight_eq_div_pow]
  rfl

theorem toNat_unpackMantissa (w : BitVec Format.binary64.numBits) :
    (unpackMantissa w).toNat = w.toNat % Nat.pow 2 52 := by
  rw [unpackMantissa_def, BitVec.extractLsb'_toNat, Nat.shiftRight_zero]
  rfl

/-- The sign bit is the first of the word. -/
theorem unpackSign_eq (w : BitVec Format.binary64.numBits) :
    Sign.ofBitVec (unpackSign w) =
      if w.toNat / Nat.pow 2 63 == 1 then .negative else .positive := by
  have hsign : (unpackSign w).toNat = w.toNat / Nat.pow 2 63 := by
    rw [unpackSign_def, BitVec.extractLsb'_toNat, Nat.shiftRight_eq_div_pow]
    have := w.isLt
    change w.toNat / 2 ^ 63 % 2 = w.toNat / 2 ^ 63
    change w.toNat < 2 ^ 64 at this
    omega
  rw [← hsign]
  rcases (unpackSign w).eq_zero_or_eq_one with h | h
  all_goals
    rw [h]
    rfl

/-- The mantissa of a word whose exponent field is empty is written out. -/
theorem unpack_of_empty {w : BitVec Format.binary64.numBits}
    (hempty : (unpackExponent w).toNat = 0) :
    unpack Format.binary64 w = if h : (unpackMantissa w).toNat = 0 then
      .zero (Sign.ofBitVec (unpackSign w))
    else .finite (Sign.ofBitVec (unpackSign w)) (unpackMantissa w).toNat (-1074)
      (Nat.pos_of_ne_zero h) := by
  have hzero : unpackExponent w = 0#11 := BitVec.eq_of_toNat_eq hempty
  rw [unpack]
  simp only [hzero]
  rw [if_neg (by decide), if_pos trivial]
  by_cases h : unpackMantissa w = 0#52
  · have hnat : (unpackMantissa w).toNat = 0 := by rw [h]; rfl
    rw [dif_pos h, dif_pos hnat]
  · have hnat : (unpackMantissa w).toNat ≠ 0 := fun hnat => h (BitVec.eq_of_toNat_eq hnat)
    rw [dif_neg h, dif_neg hnat]
    rfl

/-- The leading digit of any other number is left out of its word. -/
theorem unpack_of_exponent {w : BitVec Format.binary64.numBits}
    (hempty : (unpackExponent w).toNat ≠ 0) (hfull : (unpackExponent w).toNat ≠ 2047) :
    unpack Format.binary64 w = .finite (Sign.ofBitVec (unpackSign w))
      ((unpackMantissa w).toNat + 2 ^ 52) ((unpackExponent w).toNat - 1075) (by positivity) := by
  have hmantissa : (1#1 ++ unpackMantissa w).toNat = (unpackMantissa w).toNat + 2 ^ 52 := by
    rw [BitVec.toNat_append, ← Nat.shiftLeft_add_eq_or_of_lt (BitVec.isLt _), Nat.add_comm]
    rfl
  rw [unpack]
  simp only [hmantissa]
  rw [if_neg fun h => hfull (by rw [h]; rfl), if_neg fun h => hempty (by rw [h]; rfl)]
  rfl

/-- The sign of a number. -/
def Binary.sign (b : Binary) : Sign := if b.negative then .negative else .positive

/-- The number as its word holds it. -/
inductive Binary.Unpacks (b : Binary) : UnpackedFloat → Prop where
  | zero (h : b.mantissa = 0) : Unpacks b (.zero b.sign)
  | finite (hpos : 0 < b.mantissa) : Unpacks b (.finite b.sign b.mantissa b.exponent hpos)

/-- A mantissa has 53 digits unless the exponent is the least. -/
structure Binary.Canonical (b : Binary) : Prop where
  mantissa_lt : b.mantissa < 2 ^ 53
  log2 : b.exponent ≠ -1074 → b.mantissa.log2 = 52

theorem unpacks_of_ofFloat? {x : Float} {b : Binary} (h : Binary.ofFloat? x = some b) :
    b.Unpacks x.toModel.unpack ∧ b.Canonical := by
  let w : BitVec Format.binary64.numBits := x.toModel.toBits.toBitVec
  have hword : x.toBits.toNat = w.toNat := rfl
  have hsign := unpackSign_eq w
  have hlt : (unpackMantissa w).toNat < 2 ^ 52 := (unpackMantissa w).isLt
  change b.Unpacks (unpack Format.binary64 w) ∧ _
  simp only [Binary.ofFloat?, hword, ← toNat_unpackExponent, ← toNat_unpackMantissa] at h
  split at h
  · cases h
  next hfull =>
    split at h
    next hempty =>
      cases h
      rw [unpack_of_empty hempty, hsign]
      refine ⟨?_, ⟨Nat.lt_trans hlt (by decide), fun hne => absurd rfl hne⟩⟩
      split
      next hzero => exact .zero hzero
      next hne => exact .finite (Nat.pos_of_ne_zero hne)
    next hempty =>
      cases h
      rw [unpack_of_exponent hempty hfull, hsign]
      refine ⟨.finite _, ⟨?_, fun _ => ?_⟩⟩
      · change _ + 2 ^ 52 < 2 ^ 53
        omega
      · rw [Nat.log2_eq_iff (Nat.ne_of_gt (Nat.add_pos_right _ (by decide)))]
        change 2 ^ 52 ≤ _ + 2 ^ 52 ∧ _ + 2 ^ 52 < 2 ^ 53
        omega

/-- The numbers that are neither NaN nor infinite have a mantissa and an exponent. -/
theorem isFinite_iff {x : Float} :
    x.isFinite = true ↔ ∃ b, Binary.ofFloat? x = some b := by
  constructor
  · intro h
    rw [← Option.isSome_iff_exists, Option.isSome_iff_ne_none]
    intro hnone
    let w : BitVec Format.binary64.numBits := x.toModel.toBits.toBitVec
    have hfull : unpackExponent w = -1#11 := by
      refine BitVec.eq_of_toNat_eq ?_
      rw [toNat_unpackExponent]
      simp only [Binary.ofFloat?, ite_eq_left_iff] at hnone
      by_contra hne
      have hsome := hnone hne
      split at hsome <;> cases hsome
    change (unpack Format.binary64 w).isFinite = true at h
    rw [unpack, if_pos hfull] at h
    split at h <;> cases h
  · rintro ⟨b, hb⟩
    obtain ⟨hx, -⟩ := unpacks_of_ofFloat? hb
    change x.toModel.unpack.isFinite = true
    generalize x.toModel.unpack = u at hx
    cases hx <;> rfl

/-! ### Conversion

A whole number that has 53 digits once it is shifted by `k` places is converted to the shifted
mantissa with the exponent `-k`. -/

section

variable {n k : Nat} (hpos : 0 < n * 2 ^ k) (hlog : (n * 2 ^ k).log2 = 52)

include hpos hlog

theorem log2_add_eq : n.log2 + k = 52 := by
  have hn : n ≠ 0 := fun h => by simp [h] at hpos
  exact (log2_mul_two_pow hn k).symm.trans hlog

theorem lt_of_log2_shifted : n < 2 ^ 53 := by
  have hn : n ≠ 0 := fun h => by simp [h] at hpos
  have := log2_add_eq hpos hlog
  exact (Nat.log2_lt hn).mp (by omega)

theorem normalize_natCast : UnpackedFloat.normalize Format.binary64 (n : Int) 0 .positive =
    .finite .positive (n * 2 ^ k) (-k) hpos := by
  have hshift := log2_add_eq hpos hlog
  have htarget : (-Format.binary64.targetExponent (totalExponent n 0)).toNat = k := by
    change (-max ((n.log2 : Int) + 1 + 0 - 53) (-1074)).toNat = k
    omega
  have hcompare : compare (n : Int) 0 = .gt := by
    rw [Int.compare_eq_gt]
    exact Int.natCast_pos.mpr (Nat.pos_of_mul_pos_right hpos)
  have hround := roundWithAccuracy_exact .positive hpos hlog (e := -k) (by omega) 0
  rw [Nat.pow_zero, Nat.mul_one, Int.natCast_zero, Int.sub_zero] at hround
  rw [UnpackedFloat.normalize, hcompare]
  simp only [UnpackedFloat.round, decreaseExponent, Int.toNat_natCast, Int.zero_sub, htarget,
    Nat.shiftLeft_eq]
  exact hround

theorem unpack_pack_shifted (s : Sign) :
    (Float.Model.pack (.finite s (n * 2 ^ k) (-k) hpos)).unpack =
      .finite s (n * 2 ^ k) (-k) hpos := by
  have hshift := log2_add_eq hpos hlog
  exact unpack_pack_finite hpos hlog (by omega) (by omega)

theorem unpack_toFloat :
    n.toUInt64.toFloat.toModel.unpack = .finite .positive (n * 2 ^ k) (-k) hpos := by
  have hlt := lt_of_log2_shifted hpos hlog
  have hn : n.toUInt64.toNat = n := by
    change n % 2 ^ 64 = n
    omega
  change (Float.Model.pack (UnpackedFloat.normalize _ (n.toUInt64.toNat : Int) 0 _)).unpack = _
  rw [hn, normalize_natCast hpos hlog]
  exact unpack_pack_shifted hpos hlog .positive

omit hpos hlog in
theorem unpack_one : (Float.exactlyRepresentablePowersOfTen[0]).toModel.unpack =
    .finite .positive (2 ^ 52) (-52) (by decide) := rfl

/-- The conversion multiplies by one, which leaves 53 digits to be rounded to themselves. -/
theorem unpack_ofNat :
    (Float.ofNat n).toModel.unpack = .finite .positive (n * 2 ^ k) (-k) hpos := by
  have hshift := log2_add_eq hpos hlog
  change (Float.ofScientific n false 0).toModel.unpack = _
  rw [Float.ofScientific, dif_pos ⟨lt_of_log2_shifted hpos hlog, by decide⟩]
  change (Float.Model.pack (UnpackedFloat.mul _ n.toUInt64.toFloat.toModel.unpack
    (Float.exactlyRepresentablePowersOfTen[0]).toModel.unpack)).unpack = _
  rw [unpack_toFloat hpos hlog, unpack_one, UnpackedFloat.mul]
  change (Float.Model.pack (roundWithAccuracy _ _ _ (-k - (52 : Nat)) _)).unpack = _
  rw [roundWithAccuracy_exact _ hpos hlog (by omega)]
  exact unpack_pack_shifted hpos hlog .positive

theorem unpack_ofInt (negative : Bool) :
    (Float.ofInt (if negative then -(n : Int) else n)).toModel.unpack =
      .finite (if negative then .negative else .positive) (n * 2 ^ k) (-k) hpos := by
  cases negative with
  | false => exact unpack_ofNat hpos hlog
  | true =>
    have hn : n ≠ 0 := fun h => by simp [h] at hpos
    obtain ⟨n, rfl⟩ := Nat.exists_eq_succ_of_ne_zero hn
    change (Float.Model.pack (Float.ofNat (n + 1)).toModel.unpack.neg).unpack = _
    rw [unpack_ofNat hpos hlog]
    exact unpack_pack_shifted hpos hlog .negative

end

/-! ### Comparison -/

theorem beq_of_unpack_eq {x y : Float} (h : x.toModel.unpack = y.toModel.unpack)
    (hx : x.toModel.unpack ≠ notANumber) : (x == y) = true := by
  change x.toModel.unpack.beq y.toModel.unpack = true
  rw [beq_iff_ne_notANumber_and_eq, ← h]
  exact ⟨hx, hx, .inl rfl⟩

theorem Binary.Unpacks.ne_notANumber {b : Binary} {u : UnpackedFloat} (h : b.Unpacks u) :
    u ≠ notANumber := by
  cases h <;> simp

/-- Up to its sign, the number has the whole number `m` as its value. -/
def Binary.HasMagnitude (b : Binary) (m : Nat) : Prop :=
  m = b.mantissa * 2 ^ b.exponent.toNat ∧ 0 ≤ b.exponent ∨
    m * 2 ^ (-b.exponent).toNat = b.mantissa ∧ b.exponent < 0

theorem Binary.toInt?_eq_some {b : Binary} {n : Int} (h : b.toInt? = some n) :
    ∃ m : Nat, n = (if b.negative then -(m : Int) else m) ∧ b.HasMagnitude m := by
  simp only [toInt?, Option.map_eq_some_iff, Option.bind_eq_bind, Option.pure_def,
    Option.bind_eq_some_iff, Option.some.injEq] at h
  obtain ⟨_, ⟨m, hm, rfl⟩, rfl⟩ := h
  refine ⟨m, rfl, ?_⟩
  split at hm
  next he =>
    cases hm
    exact .inl ⟨rfl, he⟩
  next he =>
    simp only [Option.ite_none_right_eq_some, Option.some.injEq] at hm
    obtain ⟨hmod, rfl⟩ := hm
    exact .inr ⟨Nat.div_mul_cancel (Nat.dvd_of_mod_eq_zero hmod), by omega⟩

theorem Binary.HasMagnitude.mantissa_eq_zero {b : Binary} (h : b.HasMagnitude 0) :
    b.mantissa = 0 := by
  rcases h with ⟨h, -⟩ | ⟨h, -⟩
  · exact (Nat.mul_eq_zero.mp h.symm).resolve_right (Nat.ne_of_gt (Nat.two_pow_pos _))
  · rw [← h, Nat.zero_mul]

/-- A whole number other than zero with at most 53 digits is, shifted until it has 53, the mantissa
of the number that it is the value of. -/
theorem Binary.HasMagnitude.exists_shift {b : Binary} {m : Nat} (h : b.HasMagnitude m)
    (hb : b.Canonical) (hm : m ≠ 0) (hlt : m < 2 ^ 53) :
    b.mantissa.log2 = 52 ∧ ∃ k : Nat, m * 2 ^ k = b.mantissa ∧ b.exponent = -k := by
  rcases h with ⟨rfl, he⟩ | ⟨hshift, he⟩
  · have hne : b.mantissa ≠ 0 := fun h => hm (by rw [h, Nat.zero_mul])
    have hlog := hb.log2 (by omega)
    have hlog' := (Nat.log2_lt hm).mpr hlt
    rw [log2_mul_two_pow hne] at hlog'
    have hzero : b.exponent.toNat = 0 := by omega
    exact ⟨hlog, 0, by rw [hzero]; simp, by omega⟩
  · refine ⟨hb.log2 fun hleast => ?_, (-b.exponent).toNat, hshift, by omega⟩
    -- with the least exponent there are too few digits for a whole number
    have hpow : 2 ^ 53 ≤ 2 ^ (-b.exponent).toNat := Nat.pow_le_pow_right (by decide) (by omega)
    have hle : 2 ^ (-b.exponent).toNat ≤ b.mantissa := by
      rw [← hshift]
      exact Nat.le_mul_of_pos_left _ (Nat.pos_of_ne_zero hm)
    exact Nat.not_lt.mpr (Nat.le_trans hpow hle) hb.mantissa_lt

theorem unpack_ofInt_zero (negative : Bool) :
    (Float.ofInt (if negative then -((0 : Nat) : Int) else (0 : Nat))).toModel.unpack =
      .zero .positive := by
  cases negative <;> rfl

/-- A number whose value is a whole number of at most 53 digits is equal to what that number is
converted to. -/
theorem beq_ofInt {x : Float} {b : Binary} (hb : Binary.ofFloat? x = some b) {n : Int}
    (hn : b.toInt? = some n) (hlt : n.natAbs < 2 ^ 53) : (x == Float.ofInt n) = true := by
  obtain ⟨hx, hcanonical⟩ := unpacks_of_ofFloat? hb
  obtain ⟨m, rfl, hm⟩ := Binary.toInt?_eq_some hn
  by_cases hzero : m = 0
  · -- the two may differ in the sign of zero
    subst hzero
    have hmantissa := hm.mantissa_eq_zero
    change x.toModel.unpack.beq (Float.ofInt _).toModel.unpack = true
    rw [unpack_ofInt_zero]
    generalize x.toModel.unpack = u at hx
    cases hx with
    | zero => rfl
    | finite hpos => omega
  · have hmlt : m < 2 ^ 53 := by
      split at hlt <;> omega
    obtain ⟨hlog, k, hk, he⟩ := hm.exists_shift hcanonical hzero hmlt
    rw [← hk] at hlog
    have hpos : 0 < m * 2 ^ k := Nat.mul_pos (Nat.pos_of_ne_zero hzero) (Nat.two_pow_pos k)
    refine beq_of_unpack_eq ?_ hx.ne_notANumber
    rw [unpack_ofInt hpos hlog]
    generalize x.toModel.unpack = u at hx
    cases hx with
    | zero h => omega
    | finite =>
      simp only [hk, he]
      rfl

/-! ### The numbers equal to a whole number -/

theorem Binary.HasMagnitude.toInt?_eq {b : Binary} {m : Nat} (h : b.HasMagnitude m) :
    b.toInt? = some (if b.negative then -(m : Int) else m) := by
  unfold toInt?
  rcases h with ⟨rfl, he⟩ | ⟨hm, he⟩
  · rw [if_pos he]
    rfl
  · have hunit : b.mantissa = m * Nat.pow 2 (-b.exponent).toNat := hm.symm
    have hpos : 0 < Nat.pow 2 (-b.exponent).toNat := Nat.two_pow_pos _
    simp only [hunit, if_neg (Int.not_le.mpr he), Nat.mul_mod_left, if_true,
      Nat.mul_div_cancel m hpos]
    rfl

theorem Binary.hasMagnitude_zero {b : Binary} (h : b.mantissa = 0) : b.HasMagnitude 0 := by
  by_cases he : 0 ≤ b.exponent
  · exact .inl ⟨by rw [h, Nat.zero_mul], he⟩
  · exact .inr ⟨by rw [h, Nat.zero_mul], Int.not_le.mp he⟩

theorem Binary.hasMagnitude_of_shift {b : Binary} {m k : Nat} (hm : b.mantissa = m * 2 ^ k)
    (he : b.exponent = -k) : b.HasMagnitude m := by
  cases k with
  | zero => exact .inl ⟨by simp [hm, he], by omega⟩
  | succ k => exact .inr ⟨by rw [hm, he, Int.neg_neg, Int.toNat_natCast], by omega⟩

theorem Binary.Unpacks.fields_eq {b : Binary} {s : Sign} {q : Nat} {e : Int} {hq : 0 < q}
    (h : b.Unpacks (.finite s q e hq)) : b.sign = s ∧ b.mantissa = q ∧ b.exponent = e := by
  generalize hu : UnpackedFloat.finite s q e hq = u at h
  cases h with
  | zero => cases hu
  | finite =>
    cases hu
    exact ⟨rfl, rfl, rfl⟩

theorem exists_unpacks {x : Float} (h : x.toModel.unpack.isFinite = true) :
    ∃ b, Binary.ofFloat? x = some b ∧ b.Unpacks x.toModel.unpack := by
  obtain ⟨b, hb⟩ := isFinite_iff.mp h
  exact ⟨b, hb, (unpacks_of_ofFloat? hb).1⟩

/-- Only numbers whose value is the whole number are equal to what it is converted to. -/
theorem toInt?_of_beq_ofInt {x : Float} {n : Int} (hlt : n.natAbs < 2 ^ 53)
    (h : (x == Float.ofInt n) = true) :
    ∃ b, Binary.ofFloat? x = some b ∧ b.toInt? = some n := by
  obtain ⟨m, negative, rfl⟩ :
      ∃ (m : Nat) (negative : Bool), n = if negative then -(m : Int) else m :=
    ⟨n.natAbs, decide (n < 0), by simp only [decide_eq_true_eq]; split <;> omega⟩
  change x.toModel.unpack.beq (Float.ofInt _).toModel.unpack = true at h
  rw [beq_iff_ne_notANumber_and_eq] at h
  obtain ⟨-, -, heq⟩ := h
  by_cases hm : m = 0
  · subst hm
    rw [unpack_ofInt_zero] at heq
    have hzero : ∃ s, x.toModel.unpack = .zero s := by
      rcases heq with h | ⟨h, -⟩ | ⟨h, -⟩
      all_goals exact ⟨_, h⟩
    obtain ⟨s, hs⟩ := hzero
    obtain ⟨b, hb, hx⟩ := exists_unpacks (x := x) (by rw [hs]; rfl)
    rw [hs] at hx
    cases hx with
    | zero hmantissa =>
      refine ⟨b, hb, ?_⟩
      rw [(Binary.hasMagnitude_zero hmantissa).toInt?_eq]
      split <;> split <;> rfl
  · have hpow : m * 2 ^ (52 - m.log2) ≠ 0 :=
      Nat.mul_ne_zero hm (Nat.ne_of_gt (Nat.two_pow_pos _))
    have hpos := Nat.pos_of_ne_zero hpow
    have hlog : (m * 2 ^ (52 - m.log2)).log2 = 52 := by
      have hmlt : m.log2 < 53 := (Nat.log2_lt hm).mpr (by split at hlt <;> omega)
      rw [log2_mul_two_pow hm]
      omega
    rw [unpack_ofInt hpos hlog] at heq
    have hfinite := heq.resolve_right (by simp)
    obtain ⟨b, hb, hx⟩ := exists_unpacks (x := x) (by rw [hfinite]; rfl)
    rw [hfinite] at hx
    obtain ⟨hsign, hmantissa, hexponent⟩ := hx.fields_eq
    have hnegative : b.negative = negative := by
      unfold Binary.sign at hsign
      split at hsign <;> split at hsign <;> simp_all
    exact ⟨b, hb, by
      rw [(Binary.hasMagnitude_of_shift hmantissa hexponent).toInt?_eq, hnegative]⟩

theorem beq_ofInt_iff {x : Float} {n : Int} (hlt : n.natAbs < 2 ^ 53) :
    (x == Float.ofInt n) = true ↔ ∃ b, Binary.ofFloat? x = some b ∧ b.toInt? = some n :=
  ⟨toInt?_of_beq_ofInt hlt, fun ⟨_, hb, hn⟩ => beq_ofInt hb hn hlt⟩

end TreeQuery.Decimal
