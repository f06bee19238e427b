import TreeQuery.Decimal.Reading
import TreeQuery.Proofs.Decimal.Rounding

/-! Decimals are read as numbers, never as NaN. NaN comes from dividing zeros or infinities by each
other and from multiplying them, and both readings only ever scale by powers of ten that are finite
and not zero. An infinity can be the outcome; it is left to the readers to refuse it. -/

namespace TreeQuery.Decimal

open Float.Model (Format UnpackedFloat)
open Float.Model.UnpackedFloat

/-! ### Arithmetic -/

theorem isNaN_eq_false_iff {x : Float} : x.isNaN = false ↔ x.toModel.unpack ≠ notANumber := by
  change x.toModel.unpack.isNaN = false ↔ _
  cases x.toModel.unpack <;> simp [UnpackedFloat.isNaN]

theorem isNaN_pack {x : UnpackedFloat} (hx : x ≠ notANumber) :
    (Float.ofModel (Float.Model.pack x)).isNaN = false :=
  isNaN_eq_false_iff.mpr (unpack_pack_ne_notANumber hx)

/-- The number can be multiplied with and divided by: it is neither zero nor infinite. -/
def IsScale (y : Float) : Prop := IsFinite y.toModel.unpack

instance : DecidablePred IsScale := fun y => inferInstanceAs (Decidable (IsFinite y.toModel.unpack))

theorem isNaN_neg {x : Float} (hx : x.isNaN = false) : (-x).isNaN = false := by
  refine isNaN_pack ?_
  rw [isNaN_eq_false_iff] at hx
  cases h : x.toModel.unpack with
  | notANumber => exact absurd h hx
  | _ => simp [UnpackedFloat.neg]

theorem isNaN_mul {x y : Float} (hx : x.isNaN = false) (hy : IsScale y) :
    (x * y).isNaN = false := by
  rw [isNaN_eq_false_iff] at hx
  refine isNaN_pack ?_
  unfold IsScale at hy
  generalize y.toModel.unpack = scale at hy
  obtain ⟨s, m, e, hpos⟩ := hy
  cases h : x.toModel.unpack with
  | notANumber => exact absurd h hx
  | finite => exact roundWithAccuracy_ne_notANumber _ _ _ _ _
  | _ => simp [UnpackedFloat.mul]

theorem isNaN_div {x y : Float} (hx : x.isNaN = false) (hy : IsScale y) :
    (x / y).isNaN = false := by
  rw [isNaN_eq_false_iff] at hx
  refine isNaN_pack ?_
  unfold IsScale at hy
  generalize y.toModel.unpack = scale at hy
  obtain ⟨s, m, e, hpos⟩ := hy
  cases h : x.toModel.unpack with
  | notANumber => exact absurd h hx
  | finite => exact roundWithAccuracy_ne_notANumber _ _ _ _ _
  | _ => simp [UnpackedFloat.div]

/-! ### Literals -/

theorem isNaN_toFloat (n : UInt64) : n.toFloat.isNaN = false := by
  refine isNaN_pack ?_
  rw [UnpackedFloat.ofUInt64, UnpackedFloat.ofNat, UnpackedFloat.ofInt, UnpackedFloat.normalize]
  split
  · exact roundWithAccuracy_ne_notANumber _ _ _ _ _
  · simp
  · exact roundWithAccuracy_ne_notANumber _ _ _ _ _

theorem isScale_exactPower : ∀ e (h : e < Float.exactlyRepresentablePowersOfTen.size),
    IsScale (Float.exactlyRepresentablePowersOfTen[e]) := by
  decide +kernel

theorem ofScientific_ne_notANumber (m : Nat) (e : Int) :
    UnpackedFloat.ofScientific Format.binary64 m e ≠ notANumber := by
  unfold UnpackedFloat.ofScientific
  split
  · simp
  · split
    · simp
    · split
      · simp
      · split
        · exact roundWithAccuracy_ne_notANumber _ _ _ _ _
        · exact roundWithAccuracy_ne_notANumber _ _ _ _ _

theorem isNaN_ofScientific (m : Nat) (negative : Bool) (e : Nat) :
    (Float.ofScientific m negative e).isNaN = false := by
  unfold Float.ofScientific
  split
  next h =>
    split
    · exact isNaN_div (isNaN_toFloat _) (isScale_exactPower e _)
    · exact isNaN_mul (isNaN_toFloat _) (isScale_exactPower e _)
  · exact isNaN_pack (ofScientific_ne_notANumber _ _)

theorem isNaN_ofNat (n : Nat) : (Float.ofNat n).isNaN = false := isNaN_ofScientific n false 0

theorem isNaN_ofInt (n : Int) : (Float.ofInt n).isNaN = false := by
  cases n with
  | ofNat n => exact isNaN_ofNat n
  | negSucc n => exact isNaN_neg (isNaN_ofNat _)

/-! ### Powers of ten -/

/-- Powers that are not looked up are rounded products. -/
theorem powerOfTen_of_large {k : Nat} (hlow : 22 < k) (hhigh : k < 308) :
    powerOfTen k = .ofModel (Float.Model.pack (roundWithAccuracy Format.binary64
      (.positive * .positive) (1 <<< 53 * 10 ^ k) (-53 + 0) .exact)) := by
  rw [powerOfTen, Float.ofScientific, dif_neg (by omega)]
  change Float.ofModel (Float.Model.pack (UnpackedFloat.ofScientific _ 1 (k : Int))) = _
  rw [UnpackedFloat.ofScientific, dif_neg (by omega), if_neg (by change ¬ (k : Int) > 2048; omega),
    if_neg (by change ¬ (k : Int) < -(2048 + (Nat.log2 1 : Nat)); omega), if_pos (by omega)]
  rfl

theorem tenPow_lt : ∀ k < 308, 10 ^ k < 1 <<< 1023 := by decide +kernel

theorem log2_scaled {n j : Nat} (hn : 0 < n) (hlt : n < 1 <<< j) :
    52 ≤ (1 <<< 53 * n).log2 ∧ (1 <<< 53 * n).log2 < 53 + j := by
  simp only [Nat.one_shiftLeft] at hlt ⊢
  have hne : 2 ^ 53 * n ≠ 0 := Nat.mul_ne_zero (by decide) (Nat.ne_of_gt hn)
  constructor
  · rw [Nat.le_log2 hne]
    omega
  · rw [Nat.log2_lt hne, Nat.pow_add]
    exact Nat.mul_lt_mul_of_pos_left hlt (by decide)

theorem isScale_powerOfTen_of_large {k : Nat} (hlow : 22 < k) (hhigh : k < 308) :
    IsScale (powerOfTen k) := by
  obtain ⟨hge, hlt⟩ := log2_scaled (Nat.pow_pos (by decide)) (tenPow_lt k hhigh)
  obtain ⟨m, e, hpos, hnormal, hm, he, he'⟩ :=
    roundWithAccuracy_normal (.positive * .positive) hge (e := -53 + 0) (by omega) (by omega)
  rw [powerOfTen_of_large hlow hhigh, hnormal]
  exact isFinite_unpack_pack hpos hm he he'

theorem isScale_powerOfTen {k : Nat} (hk : k ≤ greatestPower) : IsScale (powerOfTen k) := by
  have hends : ∀ k ≤ 22, IsScale (powerOfTen k) := by decide +kernel
  by_cases hlow : k ≤ 22
  · exact hends k hlow
  · by_cases hhigh : k < 308
    · exact isScale_powerOfTen_of_large (by omega) hhigh
    · obtain rfl : k = 308 := by
        change k ≤ 308 at hk
        omega
      decide +kernel

/-! ### Reading -/

theorem isNaN_nearest (digits : Nat) (exponent : Int) :
    (nearest digits exponent).isNaN = false := by
  simp only [nearest]
  split
  · exact isNaN_ofScientific 0 false 0
  · split
    · rfl
    · split
      · exact isNaN_ofScientific _ _ _
      · exact isNaN_ofScientific _ _ _

theorem isNaN_scaleDown {x : Float} (hx : x.isNaN = false) (k : Nat) :
    (scaleDown x k).isNaN = false := by
  induction x, k using scaleDown.induct with
  | case1 x k hk =>
    rw [scaleDown, if_pos hk]
    exact isNaN_div hx (isScale_powerOfTen hk)
  | case2 x k hk hzero =>
    rw [scaleDown, if_neg hk, if_pos hzero]
    exact hx
  | case3 x k hk hzero ih =>
    rw [scaleDown, if_neg hk, if_neg hzero]
    have hscale : IsScale (powerOfTen greatestPower) :=
      isScale_powerOfTen (Nat.le_refl greatestPower)
    exact ih (isNaN_div hx hscale)

theorem isNaN_scaled {significand : Nat} {exponent : Int} {x : Float}
    (h : scaled significand exponent = some x) : x.isNaN = false := by
  have hx := isNaN_ofNat significand
  simp only [scaled] at h
  split at h
  · cases h
    exact isNaN_scaleDown hx _
  · split at h
    next hpower =>
      split at h
      · cases h
      · cases h
        exact isNaN_mul hx (isScale_powerOfTen hpower)
    · split at h
      · cases h
        exact hx
      · cases h

end TreeQuery.Decimal
