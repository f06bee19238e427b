import Mathlib

/-! Rounding to 53 binary digits and packing the outcome into a word. A word stands for NaN only if
its exponent field is full and its fraction is not empty; rounding yields numbers, and packing a
number leaves one of the two fields in order. A quantity well within range is rounded to a finite
number other than zero. -/

namespace TreeQuery.Decimal

open Float.Model (Format UnpackedFloat totalExponent)
open Float.Model.UnpackedFloat

/-! ### Words -/

theorem unpack_ne_notANumber {spec : Format} {b : BitVec spec.numBits}
    (h : unpackExponent b = -1#_ → unpackMantissa b = 0#_) : unpack spec b ≠ notANumber := by
  unfold unpack
  by_cases hfull : unpackExponent b = -1#_
  · simp [hfull, h hfull]
  · by_cases hzero : unpackExponent b = 0#_
    · rw [if_neg hfull, if_pos hzero]
      split <;> simp
    · rw [if_neg hfull, if_neg hzero]
      simp

/-- The number is neither zero nor infinite. -/
inductive IsFinite : UnpackedFloat → Prop where
  | intro (s : Sign) (m : Nat) (e : Int) (hpos : 0 < m) : IsFinite (.finite s m e hpos)

instance : DecidablePred IsFinite
  | .finite s m e hpos => isTrue (.intro s m e hpos)
  | .notANumber | .infinity _ | .zero _ => isFalse nofun

/-- The fields of the word that a number is packed into. -/
theorem pack_eq_packComponents {x : UnpackedFloat} (hx : x ≠ notANumber) :
    ∃ s e m, pack Format.binary64 x = packComponents Format.binary64 s e m ∧
      (e = -1#_ → m = 0#_) := by
  cases x with
  | notANumber => exact absurd rfl hx
  | infinity s => exact ⟨s, _, _, rfl, fun _ => rfl⟩
  | zero s => exact ⟨s, _, _, rfl, fun he => absurd he (by decide)⟩
  | finite s m e hpos =>
    rw [pack]
    split
    · exact ⟨s, _, _, rfl, fun _ => rfl⟩
    next hsmall =>
      split
      · -- a full exponent field would have been packed as an infinity
        refine ⟨s, _, _, rfl, fun he => ?_⟩
        have hfield := congrArg BitVec.toNat he
        change _ = 2047 at hfield
        change ¬ 2048 ≤ _ + 1 at hsmall
        rw [BitVec.toNat_ofNat, Nat.mod_eq_of_lt (by change _ < 2048; omega)] at hfield
        omega
      · exact ⟨s, _, _, rfl, fun he => absurd he (by decide)⟩

theorem unpack_pack_ne_notANumber {x : UnpackedFloat} (hx : x ≠ notANumber) :
    (Float.Model.pack x).unpack ≠ notANumber := by
  obtain ⟨s, e, m, heq, hm⟩ := pack_eq_packComponents hx
  change unpack Format.binary64 (pack Format.binary64 x) ≠ _
  rw [heq]
  refine unpack_ne_notANumber ?_
  rwa [unpackExponent_packComponents, unpackMantissa_packComponents]

/-- A mantissa of 53 digits with an exponent in range is packed with its leading digit left out, and
comes back with it. -/
theorem unpack_pack_finite {s : Sign} {m : Nat} {e : Int} (hpos : 0 < m) (hm : m.log2 = 52)
    (hlow : -1074 ≤ e) (hhigh : e ≤ 971) :
    (Float.Model.pack (.finite s m e hpos)).unpack = .finite s m e hpos := by
  obtain ⟨n, hn⟩ : ∃ n : Nat, (n : Int) = e + 1075 := ⟨(e + 1075).toNat, by omega⟩
  have hbiased : (e + Format.binary64.exponentBias +
      Format.binary64.mantissaBitsWithoutImplicit).toNat = n := by
    change (e + 1023 + 52).toNat = n
    omega
  have hpack : pack Format.binary64 (.finite s m e hpos) =
      packComponents Format.binary64 s (BitVec.ofNat 11 n) (BitVec.ofNat 52 m) := by
    rw [pack, hbiased]
    change (if 2048 ≤ n + 1 then _ else if m.log2 + 1 = 53 then _ else _) = _
    rw [if_neg (by omega), if_pos (by omega)]
  have hfield : (BitVec.ofNat 11 n).toNat = n := by
    rw [BitVec.toNat_ofNat, Nat.mod_eq_of_lt (by omega)]
  have hne : ∀ k : BitVec 11, k.toNat ≠ n → BitVec.ofNat 11 n ≠ k := fun k hk h =>
    hk (h ▸ hfield)
  have hmantissa : (1#1 ++ BitVec.ofNat 52 m).toNat = m := by
    obtain ⟨hge, hlt⟩ := (Nat.log2_eq_iff (by omega)).mp hm
    rw [BitVec.toNat_append, ← Nat.shiftLeft_add_eq_or_of_lt (BitVec.isLt _), BitVec.toNat_ofNat]
    change 2 ^ 52 + m % 2 ^ 52 = m
    omega
  change unpack Format.binary64 (pack Format.binary64 _) = _
  rw [hpack, unpack]
  simp only [unpackExponent_packComponents, unpackMantissa_packComponents,
    unpackSign_packComponents, Sign.ofBitVec_toBitVec, hfield, hmantissa]
  rw [if_neg (hne _ (by change 2047 ≠ n; omega)), if_neg (hne _ (by change 0 ≠ n; omega))]
  congr 1
  change (n : Int) - (1023 + 52) = e
  omega

theorem isFinite_unpack_pack {s : Sign} {m : Nat} {e : Int} (hpos : 0 < m) (hm : m.log2 = 52)
    (hlow : -1074 ≤ e) (hhigh : e ≤ 971) :
    IsFinite (Float.Model.pack (.finite s m e hpos)).unpack := by
  rw [unpack_pack_finite hpos hm hlow hhigh]
  exact .intro s m e hpos

/-! ### Rounding -/

theorem roundWithAccuracy_ne_notANumber (spec : Format) (s : Sign) (m : Nat) (e : Int)
    (a : Accuracy) : roundWithAccuracy spec s m e a ≠ notANumber := by
  rw [roundWithAccuracy]
  split
  simp only
  split <;> simp

theorem mantissa_shiftRight (em : ExtendedMantissa) (n : Nat) :
    (em >>> n).mantissa = em.mantissa / 2 ^ n := by
  induction n with
  | zero => exact (Nat.div_one _).symm
  | succ n ih =>
    change (em >>> n).mantissa / 2 = _
    rw [ih, Nat.div_div_eq_div_mul, ← Nat.pow_succ]

theorem roundedMantissa_cases (em : ExtendedMantissa) :
    em.roundedMantissa = em.mantissa ∨ em.roundedMantissa = em.mantissa + 1 := by
  rw [ExtendedMantissa.roundedMantissa]
  cases em.accuracy with
  | exact => exact .inl rfl
  | inexact o =>
    cases o with
    | lt => exact .inl rfl
    | eq =>
      change _ + em.mantissa % 2 = _ ∨ _ + em.mantissa % 2 = _
      omega
    | gt => exact .inr rfl

/-- What has 53 digits or more is shifted until it has 53, unless it is too small. -/
theorem shiftToTargetExponent_exact {m : Nat} {e : Int} (hm : 52 ≤ m.log2)
    (he : -1022 ≤ m.log2 + e) :
    (shiftToTargetExponent Format.binary64 m e .exact).1.mantissa = m / 2 ^ (m.log2 - 52) ∧
    (shiftToTargetExponent Format.binary64 m e .exact).2 = e + (m.log2 - 52 : Nat) := by
  have hshift : (Format.binary64.targetExponent (totalExponent m e) - e).toNat = m.log2 - 52 := by
    change (max ((m.log2 : Int) + 1 + e - 53) (-1074) - e).toNat = _
    omega
  rw [shiftToTargetExponent, shiftToExponent, hshift]
  exact ⟨mantissa_shiftRight _ _, rfl⟩

theorem log2_shifted {m : Nat} (hm : 52 ≤ m.log2) : (m / 2 ^ (m.log2 - 52)).log2 = 52 := by
  have hne : m ≠ 0 := by
    rintro rfl
    simp at hm
  obtain ⟨hge, hlt⟩ := (Nat.log2_eq_iff hne).mp rfl
  have hpow : 2 ^ 52 * 2 ^ (m.log2 - 52) = 2 ^ m.log2 := by
    rw [← Nat.pow_add]
    congr 1
    omega
  have hshifted : 2 ^ 52 ≤ m / 2 ^ (m.log2 - 52) := by
    rw [Nat.le_div_iff_mul_le (Nat.two_pow_pos _), hpow]
    exact hge
  refine (Nat.log2_eq_iff (by omega)).mpr ⟨hshifted, ?_⟩
  rw [Nat.div_lt_iff_lt_mul (Nat.two_pow_pos _), Nat.pow_succ, Nat.mul_right_comm, hpow]
  rwa [Nat.pow_succ] at hlt

theorem ne_zero_of_log2 {m : Nat} (hm : m.log2 = 52) : m ≠ 0 := by
  rintro rfl
  simp at hm

/-- Rounding up can add a digit, of which a second shift gets rid. -/
theorem log2_roundedMantissa {em : ExtendedMantissa} (hm : em.mantissa.log2 = 52) :
    em.roundedMantissa.log2 = 52 ∨ em.roundedMantissa.log2 = 53 := by
  obtain ⟨hge, hlt⟩ := (Nat.log2_eq_iff (ne_zero_of_log2 hm)).mp hm
  rcases roundedMantissa_cases em with h | h
  · exact .inl (h ▸ hm)
  · rw [h]
    by_cases htop : em.mantissa + 1 = 2 ^ 53
    · exact .inr (htop ▸ Nat.log2_two_pow)
    · exact .inl ((Nat.log2_eq_iff (by omega)).mpr ⟨by omega, by omega⟩)

/-- A quantity that starts within range, written with 53 digits or more, is rounded to one with 53
digits. -/
theorem roundWithAccuracy_normal {m : Nat} {e : Int} (s : Sign) (hm : 52 ≤ m.log2)
    (hlow : -1022 ≤ m.log2 + e) (hhigh : m.log2 + e < 1023) :
    ∃ m' e' hpos, roundWithAccuracy Format.binary64 s m e .exact = .finite s m' e' hpos ∧
      m'.log2 = 52 ∧ -1074 ≤ e' ∧ e' ≤ 971 := by
  obtain ⟨hfirst, he⟩ := shiftToTargetExponent_exact hm hlow
  generalize hshifted : shiftToTargetExponent Format.binary64 m e .exact = shifted at hfirst he
  obtain ⟨em, e₁⟩ := shifted
  simp only at hfirst he
  have hem : em.mantissa.log2 = 52 := by rw [hfirst, log2_shifted hm]
  have hrounded := log2_roundedMantissa hem
  obtain ⟨hsecond, he₂⟩ := shiftToTargetExponent_exact (m := em.roundedMantissa) (e := e₁)
    (by omega) (by omega)
  have hlog := log2_shifted (m := em.roundedMantissa) (by omega)
  rw [← hsecond] at hlog
  have hne := ne_zero_of_log2 hlog
  rw [roundWithAccuracy]
  simp only [hshifted, hne]
  exact ⟨_, _, Nat.pos_of_ne_zero hne, rfl, hlog, by omega, by omega⟩

/-! ### Exact rounding -/

theorem shiftRight_exact (m n : Nat) :
    (⟨m * 2 ^ n, false, false⟩ : ExtendedMantissa) >>> n = ⟨m, false, false⟩ := by
  induction n generalizing m with
  | zero => rw [Nat.pow_zero, Nat.mul_one]; rfl
  | succ n ih =>
    rw [Nat.pow_succ', ← Nat.mul_assoc]
    change ((⟨m * 2 * 2 ^ n, false, false⟩ : ExtendedMantissa) >>> n).shiftRightOne = _
    rw [ih, ExtendedMantissa.shiftRightOne]
    simp

theorem log2_mul_two_pow {m : Nat} (hm : m ≠ 0) (n : Nat) : (m * 2 ^ n).log2 = m.log2 + n := by
  induction n with
  | zero => simp
  | succ n ih =>
    rw [Nat.pow_succ', Nat.mul_left_comm, Nat.log2_two_mul (by positivity), ih, Nat.add_assoc]

theorem shiftToTargetExponent_of_log2 {m : Nat} {e : Int} (hm : m.log2 = 52) (he : -1074 ≤ e)
    (n : Nat) : shiftToTargetExponent Format.binary64 (m * 2 ^ n) (e - n) .exact =
      (⟨m, false, false⟩, e) := by
  have hlog := log2_mul_two_pow (ne_zero_of_log2 hm) n
  have hshift : (Format.binary64.targetExponent (totalExponent (m * 2 ^ n) (e - n)) -
      (e - n)).toNat = n := by
    change (max (((m * 2 ^ n).log2 : Int) + 1 + (e - n) - 53) (-1074) - (e - n)).toNat = n
    omega
  rw [shiftToTargetExponent, shiftToExponent, hshift, ExtendedMantissa.ofMantissaAndAccuracy,
    shiftRight_exact, Int.sub_add_cancel]

/-- Rounding does not change a number of 53 digits, however it is written. -/
theorem roundWithAccuracy_exact (s : Sign) {m : Nat} {e : Int} (hpos : 0 < m) (hm : m.log2 = 52)
    (he : -1074 ≤ e) (n : Nat) :
    roundWithAccuracy Format.binary64 s (m * 2 ^ n) (e - n) .exact = .finite s m e hpos := by
  have hagain := shiftToTargetExponent_of_log2 hm he 0
  rw [Nat.pow_zero, Nat.mul_one, Int.natCast_zero, Int.sub_zero] at hagain
  have hne : m ≠ 0 := Nat.ne_of_gt hpos
  rw [roundWithAccuracy, shiftToTargetExponent_of_log2 hm he n]
  simp only [ExtendedMantissa.roundedMantissa, ExtendedMantissa.accuracy,
    Accuracy.roundToNearestEven, hagain, hne, dite_false]

end TreeQuery.Decimal
