import Mathlib
import StackScript.Number.Written

/-!
# The order of doubles

A finite double stands for a rational number, and two finite doubles compare as their rational
numbers do. A double is packed into 64 bits after every operation; what is read back is what was
packed, as long as the mantissa has the length that its exponent asks for.

## Main definitions

* `Canonical`: a mantissa of full length, or the least exponent
* `rational?`: the rational number of a finite double

## Main results

* `unpack_pack`, `unpack_pack_eq_notANumber`: what is read back
* `lt_iff`, `beq_iff`: the comparisons of finite doubles
* `beq_self_iff`: a double equals itself unless it is a NaN
* `isNaN_ofScientific`, `isNaN_neg`: no NaN comes out of a decimal or a sign
-/

namespace StackScript.Number

open Float.Model (UnpackedFloat Format)
open Float.Model.UnpackedFloat

variable {a b : Float} {e : Int} {m n : Nat} (d : Float)

/-! ## Packing -/

/-- The mantissa has 53 bits, or the exponent is the least one. -/
def Canonical : UnpackedFloat → Prop
  | .finite _ m e _ => m < 2 ^ 53 ∧ -1074 ≤ e ∧ e ≤ 971 ∧ (2 ^ 52 ≤ m ∨ e = -1074)
  | _ => True

theorem exponentBias_binary64 : Format.binary64.exponentBias = 1023 := rfl

theorem mantissaBits_binary64 : Format.binary64.mantissaBits = 53 := rfl

theorem minExponent_binary64 : Format.binary64.minExponent = -1074 := rfl

theorem log2_eq {k : Nat} (lower : 2 ^ k ≤ n) (upper : n < 2 ^ (k + 1)) : n.log2 = k := by
  have positive : n ≠ 0 := by
    have := Nat.two_pow_pos k
    omega
  exact (Nat.log2_eq_iff positive).2 ⟨lower, upper⟩

theorem toNat_one_append (v : BitVec 52) : (1#1 ++ v).toNat = 2 ^ 52 + v.toNat := by
  rw [BitVec.toNat_append, ← Nat.shiftLeft_add_eq_or_of_lt v.isLt]
  simp [Nat.shiftLeft_eq]

theorem canonical_unpack (b : BitVec Format.binary64.numBits) : Canonical (unpack .binary64 b) := by
  have mantissa := (unpackMantissa b).isLt
  have exponent := (unpackExponent b).isLt
  have bias := exponentBias_binary64
  simp only at mantissa exponent
  rw [unpack]
  split
  · split <;> trivial
  · rename_i notInfinite
    split
    · rename_i least
      split
      · trivial
      · have zero : (unpackExponent b).toNat = 0 := congrArg BitVec.toNat least
        simp only [Canonical, zero, bias]
        omega
    · rename_i notLeast
      have : (unpackExponent b).toNat ≠ 2047 := fun h => notInfinite (BitVec.toNat_inj.1 h)
      have : (unpackExponent b).toNat ≠ 0 := fun h => notLeast (BitVec.toNat_inj.1 h)
      simp only [Canonical, toNat_one_append, bias]
      omega

/-- A canonical number of full length is read back. -/
theorem unpack_pack_normal (s : Sign) (positive : 0 < m) (lower : 2 ^ 52 ≤ m) (upper : m < 2 ^ 53)
    (least : -1074 ≤ e) (greatest : e ≤ 971) :
    unpack .binary64 (pack .binary64 (.finite s m e positive)) =
      .finite s m e positive := by
  have biased : (e + (1023 : Nat) + (52 : Nat)).toNat = (e + 1075).toNat := by omega
  have small : (e + 1075).toNat < 2047 := by omega
  have exponent : (BitVec.ofNat 11 (e + 1075).toNat).toNat = (e + 1075).toNat := by
    rw [BitVec.toNat_ofNat]
    omega
  have mantissa : (1#1 ++ BitVec.ofNat 52 m).toNat = m := by
    rw [toNat_one_append, BitVec.toNat_ofNat]
    omega
  have notInfinite : BitVec.ofNat 11 (e + 1075).toNat ≠ -1#11 := fun h => by
    have := congrArg BitVec.toNat h
    rw [exponent] at this
    simp at this
    omega
  have notLeast : BitVec.ofNat 11 (e + 1075).toNat ≠ 0#11 := fun h => by
    have := congrArg BitVec.toNat h
    rw [exponent] at this
    simp at this
    omega
  rw [pack]
  simp only [exponentBias_binary64, mantissaBits_binary64, log2_eq lower upper, biased]
  rw [if_neg (by omega), if_pos trivial, unpack]
  simp only [unpackMantissa_packComponents, unpackExponent_packComponents,
    unpackSign_packComponents, Sign.ofBitVec_toBitVec, if_neg notInfinite, if_neg notLeast,
    mantissa, exponent, exponentBias_binary64, UnpackedFloat.finite.injEq, true_and]
  omega

/-- A canonical number of the least exponent and less than full length is read back. -/
theorem unpack_pack_subnormal (s : Sign) (positive : 0 < m) (upper : m < 2 ^ 52) :
    unpack .binary64 (pack .binary64 (.finite s m (-1074) positive)) =
      .finite s m (-1074) positive := by
  have short : m.log2 < 52 := (Nat.log2_lt (by omega)).2 upper
  have mantissa : (BitVec.ofNat 52 m).toNat = m := by
    rw [BitVec.toNat_ofNat]
    omega
  have notZero : BitVec.ofNat 52 m ≠ 0#52 := fun h => by
    have := congrArg BitVec.toNat h
    rw [mantissa] at this
    simp at this
    omega
  have biased : (-1074 + (1023 : Nat) + (52 : Nat) : Int).toNat = 1 := by decide
  rw [pack]
  simp only [exponentBias_binary64, mantissaBits_binary64, biased]
  rw [if_neg (by decide), if_neg (by omega), unpack]
  simp only [unpackMantissa_packComponents, unpackExponent_packComponents,
    unpackSign_packComponents, Sign.ofBitVec_toBitVec]
  rw [if_neg (by decide), if_pos trivial, dif_neg notZero]
  simp [mantissa, exponentBias_binary64]

/-- A canonical number is read back as it was packed. -/
theorem unpack_pack {u : UnpackedFloat} (h : Canonical u) :
    unpack .binary64 (pack .binary64 u) = u := by
  cases u with
  | notANumber => rfl
  | infinity s => cases s <;> rfl
  | zero s => cases s <;> rfl
  | finite s m e positive =>
    obtain ⟨upper, least, greatest, full | rfl⟩ := h
    · exact unpack_pack_normal s positive full upper least greatest
    · by_cases full : 2 ^ 52 ≤ m
      · exact unpack_pack_normal s positive full upper least greatest
      · exact unpack_pack_subnormal s positive (by omega)

theorem unpack_eq_notANumber {b : BitVec Format.binary64.numBits} :
    unpack .binary64 b = .notANumber ↔
      unpackExponent b = -1#11 ∧ unpackMantissa b ≠ 0#52 := by
  rw [unpack]
  split
  · rename_i infinite
    split
    · rename_i zero
      simp [zero]
    · rename_i notZero
      exact ⟨fun _ => ⟨infinite, notZero⟩, fun _ => rfl⟩
  · rename_i notInfinite
    refine ⟨fun h => ?_, fun h => absurd h.1 notInfinite⟩
    split at h
    · split at h <;> cases h
    · cases h

/-- Nothing but a NaN is read back as one, canonical or not. -/
theorem unpack_pack_eq_notANumber {u : UnpackedFloat} :
    unpack .binary64 (pack .binary64 u) = .notANumber ↔ u = .notANumber := by
  refine ⟨fun h => ?_, by rintro rfl; rfl⟩
  cases u with
  | notANumber => rfl
  | infinity s => cases s <;> cases h
  | zero s => cases s <;> cases h
  | finite s m e positive =>
    obtain ⟨infinite, notZero⟩ := unpack_eq_notANumber.1 h
    rw [pack] at infinite notZero
    simp only at infinite notZero
    split at infinite
    · rename_i large
      rw [if_pos large] at notZero
      simp [packedInfinity] at notZero
    · rename_i small
      split at infinite
      · have := congrArg BitVec.toNat infinite
        simp only [unpackExponent_packComponents, BitVec.toNat_ofNat] at this
        rw [Nat.mod_eq_of_lt (by omega)] at this
        simp at this
        omega
      · rw [unpackExponent_packComponents] at infinite
        cases infinite

/-- A canonical number with the other sign. -/
theorem canonical_neg {u : UnpackedFloat} (h : Canonical u) : Canonical u.neg := by
  cases u <;> exact h

/-! ## The parts of a double -/

/-- A double, unpacked. -/
def parts (d : Float) : UnpackedFloat := d.toModel.unpack

theorem canonical_parts : Canonical (parts d) := canonical_unpack _

theorem parts_mul (a b : Float) :
    parts (a * b) = unpack .binary64 (pack .binary64 (mul .binary64 (parts a) (parts b))) := rfl

theorem parts_div (a b : Float) :
    parts (a / b) = unpack .binary64 (pack .binary64 (div .binary64 (parts a) (parts b))) := rfl

@[simp] theorem parts_neg : parts (-d) = (parts d).neg :=
  unpack_pack (canonical_neg (canonical_parts d))

theorem lt_eq : a < b ↔ (parts a).compare (parts b) = some .lt := by
  show decide (((parts a).compare (parts b) == some .lt) = true) = true ↔ _
  rw [decide_eq_true_iff, beq_iff_eq]

theorem beq_eq : (a == b) = true ↔ (parts a).compare (parts b) = some .eq := by
  show ((parts a).compare (parts b) == some .eq) = true ↔ _
  exact beq_iff_eq

theorem isNaN_iff {d : Float} : d.isNaN = true ↔ parts d = .notANumber := by
  show (parts d).isNaN = true ↔ _
  cases parts d <;> simp [isNaN]

/-! ## Comparison -/

/-- The number that a finite value stands for. -/
def numeral? : UnpackedFloat → Option Rat
  | .finite s m e _ => some ((s.apply m : Int) * (2 : Rat) ^ e)
  | .zero _ => some 0
  | _ => none

/-- The rational number of a finite double. -/
def rational? (d : Float) : Option Rat := numeral? (parts d)

/-- Negated numbers compare the other way round. -/
theorem compare_neg (x y : Rat) : compare (-x) (-y) = (compare x y).swap := by
  rcases lt_trichotomy x y with h | rfl | h
  · rw [compare_lt_iff_lt.2 h, compare_gt_iff_gt.2 (neg_lt_neg h)]
    rfl
  · simp
  · rw [compare_gt_iff_gt.2 h, compare_lt_iff_lt.2 (neg_lt_neg h)]
    rfl

/-- Canonical numbers of different exponents are ordered by them. -/
theorem mul_zpow_lt {f : Int} (upper : m < 2 ^ 53) (lower : 2 ^ 52 ≤ n) (h : e < f) :
    (m : Rat) * 2 ^ e < n * 2 ^ f := by
  have upper' : (m : Rat) < 2 ^ 53 := by exact_mod_cast upper
  have lower' : (2 : Rat) ^ 52 ≤ n := by exact_mod_cast lower
  have grows : (2 : Rat) ^ (e + 1) ≤ 2 ^ f := zpow_le_zpow_right₀ (by norm_num) (by omega)
  calc (m : Rat) * 2 ^ e
      < 2 ^ 53 * 2 ^ e := by gcongr
    _ = 2 ^ 52 * 2 ^ (e + 1) := by rw [zpow_add_one₀ (by norm_num)]; ring
    _ ≤ n * 2 ^ f := by gcongr

/-- The magnitudes of canonical numbers compare by exponent, then by mantissa. -/
theorem compare_magnitudes {s t : Sign} {f : Int} {p : 0 < m} {q : 0 < n}
    (hm : Canonical (.finite s m e p)) (hn : Canonical (.finite t n f q)) :
    (compare e f).then (compare m n) = compare ((m : Rat) * 2 ^ e) (n * 2 ^ f) := by
  obtain ⟨m_lt, le_e, -, m_full⟩ := hm
  obtain ⟨n_lt, le_f, -, n_full⟩ := hn
  rcases lt_trichotomy e f with h | rfl | h
  · rw [compare_lt_iff_lt.2 h, compare_lt_iff_lt.2 (mul_zpow_lt m_lt (by omega) h)]
    rfl
  · have unit : (0 : Rat) < 2 ^ e := by positivity
    rw [compare_eq_iff_eq.2 rfl]
    rcases lt_trichotomy m n with h | rfl | h
    · rw [compare_lt_iff_lt.2 h, compare_lt_iff_lt.2]
      · rfl
      · gcongr
    · simp
    · rw [compare_gt_iff_gt.2 h, compare_gt_iff_gt.2]
      · rfl
      · show (n : Rat) * 2 ^ e < m * 2 ^ e
        gcongr
  · rw [compare_gt_iff_gt.2 h, compare_gt_iff_gt.2 (mul_zpow_lt n_lt (by omega) h)]
    rfl

/-- Canonical finite values compare as the numbers they stand for. -/
theorem compare_eq {u v : UnpackedFloat} {x y : Rat} (hu : Canonical u) (hv : Canonical v)
    (ux : numeral? u = some x) (vy : numeral? v = some y) :
    UnpackedFloat.compare u v = some (compare x y) := by
  have unit (e : Int) : (0 : Rat) < 2 ^ e := by positivity
  cases u with
  | notANumber | infinity => cases ux
  | zero s =>
    cases ux
    cases v with
    | notANumber | infinity => cases vy
    | zero t => cases vy; rfl
    | finite t n f q =>
      cases vy
      have : (0 : Rat) < n * 2 ^ f := mul_pos (by exact_mod_cast q) (unit f)
      cases t
      · exact congrArg some (compare_gt_iff_gt.2 (by simp [Sign.apply]; omega)).symm
      · exact congrArg some (compare_lt_iff_lt.2 (by simp [Sign.apply]; omega)).symm
  | finite s m e p =>
    cases ux
    have : (0 : Rat) < m * 2 ^ e := mul_pos (by exact_mod_cast p) (unit e)
    cases v with
    | notANumber | infinity => cases vy
    | zero t =>
      cases vy
      cases s
      · exact congrArg some (compare_lt_iff_lt.2 (by simp [Sign.apply]; omega)).symm
      · exact congrArg some (compare_gt_iff_gt.2 (by simp [Sign.apply]; omega)).symm
    | finite t n f q =>
      cases vy
      have : (0 : Rat) < n * 2 ^ f := mul_pos (by exact_mod_cast q) (unit f)
      -- Of two numbers with one sign the magnitudes decide, the other way round below zero.
      have magnitudes := compare_magnitudes hu hv
      cases s <;> cases t
      · show some ((compare e f).then (compare m n)).swap = _
        rw [magnitudes, ← compare_neg]
        simp [Sign.apply]
      · exact congrArg some (compare_lt_iff_lt.2 (by simp [Sign.apply]; linarith)).symm
      · exact congrArg some (compare_gt_iff_gt.2 (by simp [Sign.apply]; linarith)).symm
      · exact congrArg some magnitudes

/-- Finite doubles are ordered as the numbers they stand for. -/
theorem lt_iff {x y : Rat} (ha : rational? a = some x) (hb : rational? b = some y) :
    a < b ↔ x < y := by
  rw [lt_eq, compare_eq (canonical_parts a) (canonical_parts b) ha hb, Option.some_inj,
    compare_lt_iff_lt]

/-- Finite doubles are equal if the numbers they stand for are. -/
theorem beq_iff {x y : Rat} (ha : rational? a = some x) (hb : rational? b = some y) :
    (a == b) = true ↔ x = y := by
  rw [beq_eq, compare_eq (canonical_parts a) (canonical_parts b) ha hb, Option.some_inj,
    compare_eq_iff_eq]

/-- A double equals itself unless it is a NaN. -/
theorem beq_self_iff {d : Float} : (d == d) = true ↔ d.isNaN = false := by
  rw [Float.beq_self_iff, Float.isNaN_eq_decide_eq_nan, decide_eq_false_iff_not]

/-! ## Where no NaN comes from -/

@[simp] theorem isNaN_neg : (-d).isNaN = d.isNaN := by
  rw [Bool.eq_iff_iff, isNaN_iff, isNaN_iff, parts_neg]
  cases parts d <;> simp [neg]

/-- A value that is neither zero nor infinite nor a NaN. -/
def isProper : UnpackedFloat → Bool
  | .finite .. => true
  | _ => false

theorem roundWithAccuracy_ne (s : Sign) (m : Nat) (e : Int) (a : Accuracy) :
    roundWithAccuracy .binary64 s m e a ≠ .notANumber := by
  rw [roundWithAccuracy]
  simp only
  split <;> exact UnpackedFloat.noConfusion

theorem mul_ne {u v : UnpackedFloat} (hu : u ≠ .notANumber) (hv : isProper v = true) :
    mul .binary64 u v ≠ .notANumber := by
  cases v with
  | notANumber | infinity | zero => cases hv
  | finite t n f q =>
    cases u with
    | notANumber => exact absurd rfl hu
    | finite s m e p => exact roundWithAccuracy_ne _ _ _ _
    | infinity | zero => exact UnpackedFloat.noConfusion

theorem div_ne {u v : UnpackedFloat} (hu : u ≠ .notANumber) (hv : isProper v = true) :
    div .binary64 u v ≠ .notANumber := by
  cases v with
  | notANumber | infinity | zero => cases hv
  | finite t n f q =>
    cases u with
    | notANumber => exact absurd rfl hu
    | finite s m e p => exact roundWithAccuracy_ne _ _ _ _
    | infinity | zero => exact UnpackedFloat.noConfusion

theorem ofNat_ne (n : Nat) : UnpackedFloat.ofNat .binary64 n ≠ .notANumber := by
  rw [UnpackedFloat.ofNat, UnpackedFloat.ofInt, UnpackedFloat.normalize]
  split
  · exact roundWithAccuracy_ne _ _ _ _
  · exact UnpackedFloat.noConfusion
  · exact roundWithAccuracy_ne _ _ _ _

theorem ofScientific_ne (n : Nat) (e : Int) :
    UnpackedFloat.ofScientific .binary64 n e ≠ .notANumber := by
  rw [UnpackedFloat.ofScientific]
  repeat' split
  · exact UnpackedFloat.noConfusion
  · exact UnpackedFloat.noConfusion
  · exact UnpackedFloat.noConfusion
  · exact mul_ne UnpackedFloat.noConfusion rfl
  · exact div_ne UnpackedFloat.noConfusion rfl

/-- The powers of ten that are doubles are read from a table; none of them is zero. -/
theorem isProper_powerOfTen :
    ∀ e : Fin 23, isProper (parts Float.exactlyRepresentablePowersOfTen[e]) = true := by
  decide +kernel

/-- A decimal is no NaN. -/
theorem isNaN_ofScientific (n : Nat) (negative : Bool) (e : Nat) :
    (Float.ofScientific n negative e).isNaN = false := by
  rw [← Bool.not_eq_true, isNaN_iff, Float.ofScientific]
  split
  · rename_i short
    have whole : parts n.toUInt64.toFloat ≠ .notANumber :=
      fun h => ofNat_ne _ (unpack_pack_eq_notANumber.1 h)
    have power := isProper_powerOfTen ⟨e, by omega⟩
    split
    · rw [parts_div, unpack_pack_eq_notANumber]
      exact div_ne whole power
    · rw [parts_mul, unpack_pack_eq_notANumber]
      exact mul_ne whole power
  · exact fun h => ofScientific_ne _ _ (unpack_pack_eq_notANumber.1 h)

/-- An integer is no NaN. -/
theorem isNaN_ofInt (n : Int) : (Float.ofInt n).isNaN = false := by
  cases n with
  | ofNat n => exact isNaN_ofScientific n false 0
  | negSucc n => exact (isNaN_neg _).trans (isNaN_ofScientific (n + 1) false 0)

end StackScript.Number
