import StackScript.Proofs.Number.Doubles

/-!
# Integers as doubles

The double of an integer is the nearest one: the integer rounded to 53 significant bits, a tie to
the even mantissa. Rounding keeps the order, but numbers beyond 53 bits may meet.

## Main definitions

* `roundShift`: a whole number divided by a power of two and rounded
* `nearest`: the whole number nearest to an integer that has no more than 53 significant bits

## Main results

* `rational?_ofInt`: a 64-bit integer as a double stands for the nearest such number
* `nearest_mono`, `nearest_of_le`: rounding keeps the order, and short numbers as they are
* `nearest_eq_iff`, `nearest_lt_iff`: no other number is rounded to a short one
-/

namespace StackScript.Number

open Float.Model (UnpackedFloat Format totalExponent)
open Float.Model.UnpackedFloat

variable {a b e : Int} {m n : Nat} (shift : Nat)

/-! ## Rounding whole numbers -/

/-- A whole number divided by a power of two, rounded to the nearest whole number, a tie to the even
one. -/
def roundShift (m shift : Nat) : Nat :=
  let low := m / 2 ^ shift
  let rest := m % 2 ^ shift
  if 2 * rest < 2 ^ shift then low
  else if 2 * rest = 2 ^ shift then low + low % 2
  else low + 1

/-- The number of bits behind the first 53. -/
def surplus (n : Nat) : Nat := n.log2 - 52

/-- A whole number rounded to 53 significant bits. -/
def nearestNat (n : Nat) : Nat := roundShift n (surplus n) * 2 ^ surplus n

/-- An integer rounded to 53 significant bits. -/
def nearest (n : Int) : Int := n.sign * nearestNat n.natAbs

theorem le_roundShift (m shift : Nat) : m / 2 ^ shift ≤ roundShift m shift := by
  rw [roundShift]
  grind

theorem roundShift_le (m shift : Nat) : roundShift m shift ≤ m / 2 ^ shift + 1 := by
  rw [roundShift]
  grind

theorem roundShift_zero (m : Nat) : roundShift m 0 = m := by simp [roundShift, Nat.mod_one]

theorem roundShift_mono (h : m ≤ n) : roundShift m shift ≤ roundShift n shift := by
  have unit := Nat.two_pow_pos shift
  have m_eq := Nat.div_add_mod m (2 ^ shift)
  have n_eq := Nat.div_add_mod n (2 ^ shift)
  rcases (Nat.div_le_div_right (c := 2 ^ shift) h).eq_or_lt with same | less
  · have rest : m % 2 ^ shift ≤ n % 2 ^ shift := by
      rw [same] at m_eq
      omega
    rw [roundShift, roundShift, same]
    grind
  · have := roundShift_le m shift
    have := le_roundShift n shift
    omega

/-- Factors that are cut off do not matter. -/
theorem roundShift_mul (m shift more : Nat) :
    roundShift (m * 2 ^ more) (shift + more) = roundShift m shift := by
  have unit := Nat.two_pow_pos more
  have low : m * 2 ^ more / 2 ^ (shift + more) = m / 2 ^ shift := by
    rw [Nat.pow_add, Nat.mul_div_mul_right _ _ unit]
  have rest : m * 2 ^ more % 2 ^ (shift + more) = m % 2 ^ shift * 2 ^ more := by
    rw [Nat.pow_add, Nat.mul_mod_mul_right]
  have less : 2 * (m % 2 ^ shift * 2 ^ more) < 2 ^ shift * 2 ^ more ↔
      2 * (m % 2 ^ shift) < 2 ^ shift := by
    rw [← Nat.mul_assoc, Nat.mul_lt_mul_right unit]
  have equal : 2 * (m % 2 ^ shift * 2 ^ more) = 2 ^ shift * 2 ^ more ↔
      2 * (m % 2 ^ shift) = 2 ^ shift := by
    rw [← Nat.mul_assoc, Nat.mul_left_inj (by omega)]
  simp only [roundShift, low, rest]
  rw [Nat.pow_add]
  simp only [less, equal]

theorem nearestNat_of_le (h : n ≤ 2 ^ 53) : nearestNat n = n := by
  rcases h.eq_or_lt with rfl | h
  · decide +kernel
  · have short : n.log2 ≤ 52 := by
      rcases Nat.eq_zero_or_pos n with rfl | positive
      · decide
      · have := (Nat.log2_lt (by omega)).2 h
        omega
    rw [nearestNat, surplus, Nat.sub_eq_zero_of_le short, roundShift_zero, Nat.pow_zero,
      Nat.mul_one]

theorem two_pow_log2_le (positive : 0 < n) : 2 ^ n.log2 ≤ n := Nat.log2_self_le (by omega)

/-- A number rounds to a mantissa of 53 bits, or to the next power of two. -/
theorem roundShift_surplus (h : 52 ≤ n.log2) :
    2 ^ 52 ≤ roundShift n (surplus n) ∧ roundShift n (surplus n) ≤ 2 ^ 53 := by
  have positive : n ≠ 0 := by
    rintro rfl
    simp at h
  have split : n.log2 = 52 + surplus n := by
    rw [surplus]
    omega
  have unit := Nat.two_pow_pos (surplus n)
  have lower : 2 ^ 52 ≤ n / 2 ^ surplus n := by
    rw [Nat.le_div_iff_mul_le unit, ← Nat.pow_add, ← split]
    exact Nat.log2_self_le positive
  have upper : n / 2 ^ surplus n < 2 ^ 53 := by
    rw [Nat.div_lt_iff_lt_mul unit, ← Nat.pow_add, show 53 + surplus n = n.log2 + 1 by omega]
    exact Nat.lt_log2_self
  have := le_roundShift n (surplus n)
  have := roundShift_le n (surplus n)
  omega

theorem roundShift_surplus_le (n : Nat) : roundShift n (surplus n) ≤ 2 ^ 53 := by
  by_cases h : 52 ≤ n.log2
  · exact (roundShift_surplus h).2
  · have : n < 2 ^ (n.log2 + 1) := Nat.lt_log2_self
    have : 2 ^ (n.log2 + 1) ≤ 2 ^ 53 := Nat.pow_le_pow_right (by decide) (by omega)
    rw [surplus, Nat.sub_eq_zero_of_le (by omega), roundShift_zero]
    omega

theorem log2_mul (positive : 0 < n) (shift : Nat) : (n * 2 ^ shift).log2 = n.log2 + shift := by
  apply log2_eq
  · rw [Nat.pow_add]
    exact Nat.mul_le_mul_right _ (two_pow_log2_le positive)
  · rw [Nat.add_right_comm, Nat.pow_add]
    exact Nat.mul_lt_mul_of_pos_right Nat.lt_log2_self (Nat.two_pow_pos shift)

/-- A number of at least 53 bits is rounded in the same way whatever its unit is. -/
theorem nearestNat_mul (long : 52 ≤ n.log2) (shift : Nat) :
    nearestNat (n * 2 ^ shift) = nearestNat n * 2 ^ shift := by
  have positive : 0 < n := by
    rcases Nat.eq_zero_or_pos n with rfl | positive
    · simp at long
    · exact positive
  have cut : surplus (n * 2 ^ shift) = surplus n + shift := by
    rw [surplus, surplus, log2_mul positive]
    omega
  rw [nearestNat, cut, roundShift_mul, Nat.pow_add, ← Nat.mul_assoc, nearestNat]

theorem nearestNat_mono (h : m ≤ n) : nearestNat m ≤ nearestNat n := by
  have logs : m.log2 ≤ n.log2 := by
    rcases Nat.eq_zero_or_pos m with rfl | positive
    · simp
    · exact (Nat.le_log2 (by omega)).2 ((two_pow_log2_le positive).trans h)
  rcases (show surplus m ≤ surplus n by unfold surplus; omega).eq_or_lt with same | less
  · rw [nearestNat, nearestNat, same]
    exact Nat.mul_le_mul_right _ (roundShift_mono _ h)
  · -- The power of two between the two numbers stays between them.
    have long : 52 ≤ n.log2 := by
      rw [surplus, surplus] at less
      omega
    calc nearestNat m ≤ 2 ^ 53 * 2 ^ surplus m := Nat.mul_le_mul_right _ (roundShift_surplus_le m)
      _ = 2 ^ 52 * 2 ^ (surplus m + 1) := by ring
      _ ≤ 2 ^ 52 * 2 ^ surplus n := by gcongr <;> omega
      _ ≤ nearestNat n := Nat.mul_le_mul_right _ (roundShift_surplus long).1

@[simp] theorem nearest_natCast (n : Nat) : nearest n = nearestNat n := by
  rcases Nat.eq_zero_or_pos n with rfl | positive
  · rfl
  · rw [nearest, Int.sign_eq_one_of_pos (by omega)]
    simp

theorem nearest_neg (n : Int) : nearest (-n) = -nearest n := by
  simp [nearest]

theorem nearest_mono (h : a ≤ b) : nearest a ≤ nearest b := by
  obtain ⟨m, rfl | rfl⟩ := a.eq_nat_or_neg <;> obtain ⟨n, rfl | rfl⟩ := b.eq_nat_or_neg
  · have := nearestNat_mono (show m ≤ n by omega)
    simpa using this
  · obtain ⟨rfl, rfl⟩ : m = 0 ∧ n = 0 := by omega
    simp
  · rw [nearest_neg, nearest_natCast, nearest_natCast]
    omega
  · have := nearestNat_mono (show n ≤ m by omega)
    simpa [nearest_neg] using this

theorem nearest_of_le (h : a.natAbs ≤ 2 ^ 53) : nearest a = a := by
  rw [nearest, nearestNat_of_le h, Int.sign_mul_natAbs]

/-- Two integers that are rounded to the same number are the same if one has at most 53 bits. -/
theorem nearest_eq_iff (short : a.natAbs < 2 ^ 53 ∨ b.natAbs < 2 ^ 53) :
    nearest a = nearest b ↔ a = b := by
  refine ⟨fun h => ?_, congrArg nearest⟩
  wlog a_short : a.natAbs < 2 ^ 53 generalizing a b
  · exact (this short.symm h.symm (short.resolve_left a_short)).symm
  have a_eq := nearest_of_le a_short.le
  by_cases b_short : b.natAbs ≤ 2 ^ 53
  · rw [← a_eq, h, nearest_of_le b_short]
  · have upper : nearest (2 ^ 53) = 2 ^ 53 := nearest_of_le (by decide)
    have lower : nearest (-2 ^ 53) = -2 ^ 53 := nearest_of_le (by decide)
    rcases (show 2 ^ 53 ≤ b ∨ b ≤ -2 ^ 53 by omega) with large | small
    · have := nearest_mono large
      omega
    · have := nearest_mono small
      omega

/-- Rounding does not change the order of two integers if one has at most 53 bits. -/
theorem nearest_lt_iff (short : a.natAbs < 2 ^ 53 ∨ b.natAbs < 2 ^ 53) :
    nearest a < nearest b ↔ a < b := by
  have same := nearest_eq_iff short
  refine ⟨fun h => ?_, fun h => ?_⟩
  · by_contra le
    exact absurd (nearest_mono (not_lt.1 le)) (not_le.2 h)
  · have := nearest_mono h.le
    omega

/-! ## Rounding in floating point -/

/-- The mantissa after a number of shifts, with what the bits behind it are to half a unit. -/
def shifted (m shift : Nat) : ExtendedMantissa where
  mantissa := m / 2 ^ shift
  roundBit := 2 ^ shift ≤ 2 * (m % 2 ^ shift)
  stickyBit := 2 * (m % 2 ^ shift) % 2 ^ shift ≠ 0

theorem repeat_shiftRightOne (m shift : Nat) :
    Nat.repeat ExtendedMantissa.shiftRightOne shift ⟨m, false, false⟩ = shifted m shift := by
  induction shift with
  | zero => simp [Nat.repeat, shifted, Nat.mod_one]
  | succ shift ih =>
    have unit := Nat.two_pow_pos shift
    have rest : m % 2 ^ shift < 2 ^ shift := Nat.mod_lt _ unit
    have rest_eq : m % 2 ^ (shift + 1) = m % 2 ^ shift + 2 ^ shift * (m / 2 ^ shift % 2) := by
      rw [Nat.pow_succ, Nat.mod_mul]
    have quotient : m / 2 ^ (shift + 1) = m / 2 ^ shift / 2 := by
      rw [Nat.pow_succ, Nat.div_div_eq_div_mul]
    have twice : 2 * (m % 2 ^ (shift + 1)) % 2 ^ (shift + 1) = 2 * (m % 2 ^ shift) := by
      rw [Nat.pow_succ', Nat.mul_mod_mul_left, ← Nat.pow_succ', rest_eq, Nat.add_mul_mod_self_left,
        Nat.mod_eq_of_lt rest]
    rw [Nat.repeat, ih, shifted, ExtendedMantissa.shiftRightOne, shifted,
      ExtendedMantissa.mk.injEq]
    refine ⟨quotient.symm, ?_, ?_⟩
    · rw [rest_eq, Nat.pow_succ']
      rcases Nat.mod_two_eq_zero_or_one (m / 2 ^ shift) with even | odd
      · simp [even, rest]
      · simp [odd]
    · rw [twice]
      by_cases half : 2 ^ shift ≤ 2 * (m % 2 ^ shift)
      · simp [half]
        omega
      · simp [half, Nat.mod_eq_of_lt (not_le.1 half)]

theorem roundedMantissa_shifted (m shift : Nat) :
    (shifted m shift).roundedMantissa = roundShift m shift := by
  have rest : m % 2 ^ shift < 2 ^ shift := Nat.mod_lt _ (Nat.two_pow_pos shift)
  rw [ExtendedMantissa.roundedMantissa, shifted, roundShift]
  by_cases half : 2 ^ shift ≤ 2 * (m % 2 ^ shift)
  · have behind : 2 * (m % 2 ^ shift) % 2 ^ shift = 2 * (m % 2 ^ shift) - 2 ^ shift := by
      rw [Nat.mod_eq_sub_mod half, Nat.mod_eq_of_lt (by omega)]
    by_cases tie : 2 * (m % 2 ^ shift) = 2 ^ shift
    · simp [tie, ExtendedMantissa.accuracy, Accuracy.roundToNearestEven]
    · have : 2 * (m % 2 ^ shift) - 2 ^ shift ≠ 0 := by omega
      simp [half, behind, tie, this, not_lt.2 half, ExtendedMantissa.accuracy,
        Accuracy.roundToNearestEven]
  · by_cases zero : m % 2 ^ shift = 0 <;>
      simp [half, not_le.1 half, Nat.mod_eq_of_lt (not_le.1 half), zero, ExtendedMantissa.accuracy,
        Accuracy.roundToNearestEven]

/-- A mantissa of more than 53 bits that does not fall below the least exponent is cut to 53
bits. -/
theorem shiftToTargetExponent_eq (least : -1074 ≤ e + surplus m) (long : 52 ≤ m.log2) :
    shiftToTargetExponent .binary64 m e .exact = (shifted m (surplus m), e + surplus m) := by
  have shift : (Format.binary64.targetExponent (totalExponent m e) - e).toNat = surplus m := by
    rw [Format.targetExponent, totalExponent, mantissaBits_binary64, minExponent_binary64,
      surplus] at *
    omega
  rw [shiftToTargetExponent, shiftToExponent]
  simp only [shift, ExtendedMantissa.ofMantissaAndAccuracy]
  exact congrArg (·, e + (surplus m : Int)) (repeat_shiftRightOne m (surplus m))

/-- A mantissa between the least and the greatest one of 53 bits needs no cut, the next power of two
one of a single bit, and neither loses anything. -/
theorem div_surplus (lower : 2 ^ 52 ≤ m) (upper : m ≤ 2 ^ 53) :
    surplus m ≤ 1 ∧ 2 ^ 52 ≤ m / 2 ^ surplus m ∧ m / 2 ^ surplus m < 2 ^ 53 ∧
      m / 2 ^ surplus m * 2 ^ surplus m = m := by
  rcases upper.lt_or_eq with less | rfl
  · rw [surplus, log2_eq lower less]
    omega
  · rw [surplus, log2_eq (k := 53) (by decide) (by decide)]
    decide

/-- A mantissa of 53 bits or the next power of two, written with 53 bits. -/
def carried (s : Sign) (m : Nat) (e : Int) : UnpackedFloat :=
  if h : m / 2 ^ surplus m = 0 then .zero s
  else .finite s (m / 2 ^ surplus m) (e + surplus m) (Nat.pos_of_ne_zero h)

theorem cast_apply (s : Sign) (n : Nat) : ((s.apply n : Int) : Rat) = (s.apply 1 : Int) * n := by
  cases s <;> simp [Sign.apply]

theorem carried_spec {s : Sign} (lower : 2 ^ 52 ≤ m) (upper : m ≤ 2 ^ 53) (least : -1074 ≤ e)
    (greatest : e < 971) :
    Canonical (carried s m e) ∧
      numeral? (carried s m e) = some ((s.apply m : Int) * (2 : Rat) ^ e) := by
  obtain ⟨bit, full, short, exact⟩ := div_surplus lower upper
  have value : ((m / 2 ^ surplus m : Nat) : Rat) * 2 ^ (e + surplus m) = m * 2 ^ e := by
    rw [zpow_add₀ (by decide), zpow_natCast, ← mul_assoc, mul_right_comm]
    congr 1
    exact_mod_cast exact
  rw [carried, dif_neg (by omega)]
  refine ⟨⟨short, by omega, by omega, .inl full⟩, ?_⟩
  rw [numeral?, cast_apply, mul_assoc, value, cast_apply s m, mul_assoc]

/-- A long mantissa is rounded to 53 bits. -/
theorem roundWithAccuracy_eq {s : Sign} (long : 52 ≤ m.log2) (least : -1074 ≤ e + surplus m) :
    roundWithAccuracy .binary64 s m e .exact =
      carried s (roundShift m (surplus m)) (e + surplus m) := by
  have again : 52 ≤ (roundShift m (surplus m)).log2 := by
    have := (roundShift_surplus long).1
    exact (Nat.le_log2 (by omega)).2 this
  have further : -1074 ≤ e + surplus m + surplus (roundShift m (surplus m)) := by omega
  rw [roundWithAccuracy, carried]
  simp only [shiftToTargetExponent_eq least long, roundedMantissa_shifted,
    shiftToTargetExponent_eq further again]
  rfl

/-- The number that a long mantissa is rounded to. -/
theorem roundWithAccuracy_spec {s : Sign} (long : 52 ≤ m.log2) (least : -1074 ≤ e + surplus m)
    (greatest : e + surplus m < 971) :
    Canonical (roundWithAccuracy .binary64 s m e .exact) ∧
      numeral? (roundWithAccuracy .binary64 s m e .exact) =
        some ((s.apply (nearestNat m) : Int) * (2 : Rat) ^ e) := by
  obtain ⟨lower, upper⟩ := roundShift_surplus long
  obtain ⟨canonical, value⟩ := carried_spec (s := s) lower upper least greatest
  rw [roundWithAccuracy_eq long least]
  refine ⟨canonical, value.trans (congrArg some ?_)⟩
  rw [nearestNat, zpow_add₀ (by decide), zpow_natCast, cast_apply, cast_apply s (_ * _)]
  push_cast
  ring

/-! ## Integers as doubles -/

/-- A mantissa of 53 bits stays as it is. -/
theorem roundWithAccuracy_mul {s : Sign} (lower : 2 ^ 52 ≤ m) (upper : m < 2 ^ 53)
    (positive : 0 < m) (least : -1074 ≤ e + shift) :
    roundWithAccuracy .binary64 s (m * 2 ^ shift) e .exact = .finite s m (e + shift) positive := by
  have log : (m * 2 ^ shift).log2 = 52 + shift := by rw [log2_mul positive, log2_eq lower upper]
  have cut : surplus (m * 2 ^ shift) = shift := by
    rw [surplus, log]
    omega
  have uncut : surplus m = 0 := by rw [surplus, log2_eq lower upper]
  have whole : roundShift (m * 2 ^ shift) shift = m := by
    simpa [roundShift_zero] using roundShift_mul m 0 shift
  rw [roundWithAccuracy_eq (by omega) (by omega), cut, whole]
  simp [carried, uncut, positive.ne']

/-- A short number gets the 53 bits of its mantissa by zeros at the end. -/
theorem ofNat_short (positive : 0 < n) (short : n < 2 ^ 53) :
    ∃ m e p, UnpackedFloat.ofNat .binary64 n = .finite .positive m e p ∧
      2 ^ 52 ≤ m ∧ m < 2 ^ 53 ∧ -52 ≤ e ∧ e ≤ 0 ∧ (m : Rat) * 2 ^ e = n := by
  have log : n.log2 ≤ 52 := by
    have := (Nat.log2_lt (by omega)).2 short
    omega
  have split : n.log2 + (52 - n.log2) = 52 := by omega
  have filled : 0 < n * 2 ^ (52 - n.log2) := Nat.mul_pos positive (Nat.two_pow_pos _)
  have lower : 2 ^ 52 ≤ n * 2 ^ (52 - n.log2) := by
    have := two_pow_log2_le filled
    rwa [log2_mul positive, split] at this
  have upper : n * 2 ^ (52 - n.log2) < 2 ^ 53 := by
    have := Nat.lt_log2_self (n := n * 2 ^ (52 - n.log2))
    rwa [log2_mul positive, split] at this
  refine ⟨n * 2 ^ (52 - n.log2), n.log2 - 52, by omega, ?_, lower, upper, by omega, by omega, ?_⟩
  · have shift :
        ((0 : Int) - Format.binary64.targetExponent (totalExponent n 0)).toNat = 52 - n.log2 := by
      rw [Format.targetExponent, totalExponent, mantissaBits_binary64, minExponent_binary64]
      omega
    have exact := roundWithAccuracy_mul (s := .positive) (e := n.log2 - 52) 0 lower upper (by omega)
      (by omega)
    rw [UnpackedFloat.ofNat, UnpackedFloat.ofInt, UnpackedFloat.normalize,
      compare_gt_iff_gt.2 (by omega)]
    simp only [UnpackedFloat.round, decreaseExponent, Int.toNat_natCast, shift, Nat.shiftLeft_eq]
    rw [Nat.pow_zero, Nat.mul_one] at exact
    convert exact using 2 <;> omega
  · push_cast
    have none : ((52 - n.log2 : Nat) : Int) + (n.log2 - 52) = 0 := by omega
    rw [mul_assoc, ← zpow_natCast, ← zpow_add₀ (by decide), none]
    simp

/-- The first power of ten in the table is one. -/
theorem parts_one :
    parts Float.exactlyRepresentablePowersOfTen[0] =
      .finite .positive (2 ^ 52) (-52) (by decide) := by
  rfl

theorem rational?_ofNat_short (h : n < 2 ^ 53) :
    rational? (n.toUInt64.toFloat * Float.exactlyRepresentablePowersOfTen[0]) = some (n : Rat) := by
  have size : n.toUInt64.toNat = n := Nat.mod_eq_of_lt (by omega)
  have whole : parts n.toUInt64.toFloat =
      unpack .binary64 (pack .binary64 (UnpackedFloat.ofNat .binary64 n)) := by
    conv_rhs => rw [← size]
    rfl
  rcases Nat.eq_zero_or_pos n with rfl | positive
  · rfl
  · obtain ⟨m, e, p, eq, lower, upper, least, greatest, value⟩ := ofNat_short positive h
    have product := roundWithAccuracy_mul (s := .positive) (e := e - 52) 52 lower upper p (by omega)
    rw [show e - 52 + (52 : Nat) = e by omega] at product
    have canonical : Canonical (.finite .positive m e p) := ⟨upper, by omega, by omega, .inl lower⟩
    rw [rational?, parts_mul, whole, eq, unpack_pack canonical, parts_one]
    show numeral? (unpack .binary64 (pack .binary64
      (roundWithAccuracy .binary64 .positive (m * 2 ^ 52) (e - 52) .exact))) = _
    rw [product, unpack_pack canonical, numeral?, ← value]
    simp [Sign.apply]

theorem rational?_ofNat (h : n < 2 ^ 64) :
    rational? (Float.ofNat n) = some (nearestNat n : Rat) := by
  by_cases short : n < 2 ^ 53
  · rw [nearestNat_of_le short.le, ← rational?_ofNat_short short]
    show rational? (Float.ofScientific n false 0) = _
    rw [Float.ofScientific, dif_pos ⟨short, by decide⟩]
    rfl
  · have long : 53 ≤ n.log2 := (Nat.le_log2 (by omega)).2 (by omega)
    have bounded : n.log2 < 64 := (Nat.log2_lt (by omega)).2 h
    have cut : surplus (n * 2 ^ 53) = n.log2 + 1 := by
      rw [surplus, log2_mul (by omega)]
      omega
    obtain ⟨canonical, value⟩ := roundWithAccuracy_spec (s := .positive) (m := n * 2 ^ 53) (e := -53)
      (by rw [log2_mul (by omega)]; omega) (by omega) (by omega)
    have scaled : UnpackedFloat.ofScientific .binary64 n 0 =
        roundWithAccuracy .binary64 .positive (n * 2 ^ 53) (-53) .exact := by
      have notTiny : ¬(0 : Int) < -((2 ^ 11 : Int) + n.log2) := by omega
      rw [UnpackedFloat.ofScientific, dif_neg (by omega), if_neg (by decide), if_neg notTiny,
        if_pos (le_refl 0)]
      simp [mul, mantissaBits_binary64, Nat.shiftLeft_eq]
      rfl
    show rational? (Float.ofScientific n false 0) = _
    rw [Float.ofScientific, dif_neg (by omega)]
    show numeral? (unpack .binary64 (pack .binary64 (UnpackedFloat.ofScientific .binary64 n 0))) = _
    rw [scaled, unpack_pack canonical, value, nearestNat_mul (by omega), cast_apply]
    have unit : ((2 ^ 53 : Nat) : Rat) * 2 ^ (-53 : Int) = 1 := by norm_num
    rw [Nat.cast_mul, mul_assoc, mul_assoc, unit]
    simp [Sign.apply]

theorem rational?_neg (d : Float) : rational? (-d) = (rational? d).map Neg.neg := by
  rw [rational?, parts_neg, rational?]
  cases parts d with
  | finite s m e p => cases s <;> simp [UnpackedFloat.neg, numeral?, Sign.apply]
  | _ => simp [UnpackedFloat.neg, numeral?]

/-- A 64-bit integer as a double. -/
theorem rational?_ofInt {n : Int} (h : n.natAbs < 2 ^ 64) :
    rational? (Float.ofInt n) = some (nearest n : Rat) := by
  cases n with
  | ofNat n =>
    rw [Int.ofNat_eq_natCast, nearest_natCast]
    exact (rational?_ofNat (by simpa using h)).trans (by simp)
  | negSucc n =>
    show rational? (-Float.ofNat (n + 1)) = _
    rw [rational?_neg, rational?_ofNat (by simpa using h), Int.negSucc_eq, nearest_neg,
      show (n : Int) + 1 = (n + 1 : Nat) by simp, nearest_natCast]
    simp

end StackScript.Number
