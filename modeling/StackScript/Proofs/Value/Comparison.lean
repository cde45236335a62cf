import StackScript.Machine.Step
import StackScript.Proofs.Number.Nearest
import StackScript.Proofs.Text.Case

/-!
# Loose and strict equality

Identical values are loosely equal, except where a text inside them spells a NaN: texts that spell
numbers are compared as numbers, and a NaN does not equal itself. Integers are compared as doubles,
so that two of more than 53 bits may be taken for equal. Loose equality is symmetric all the same:
its rules are tried in order, but where two of them apply they agree.

## Main definitions

* `Text.SpellsNaN`, `Value.spellsNaN`: a text that spells a NaN, and a value with such a text in it

## Main results

* `Number.isNaN_of_readDouble?`: which texts are read as a NaN
* `Value.looselyEqual_of_identical`: strict equality against loose equality
* `Value.looselyEqual_comm`: loose equality is symmetric
* `Value.looselyEqual_long`, `BinaryOp.apply_lt_long`, `BinaryOp.apply_gt_long`: integers compare as
  the numbers nearest to them
-/

namespace StackScript

/-! ## Texts that spell a NaN -/

namespace Text

/-- Between blanks, and behind a sign if there is one, the text is the word for a NaN in any case of
its letters. -/
def SpellsNaN (s : String) : Prop :=
  (trimBlanks s.toList).map Char.toLower ∈ ["nan".toList, "+nan".toList, "-nan".toList]

instance (s : String) : Decidable (SpellsNaN s) := inferInstanceAs (Decidable (_ ∈ _))

end Text

namespace Number

variable {cs : List Char} {d : Float} {s : String}

theorem isNaN_toDouble (d : Decimal) : d.toDouble.isNaN = false := by
  rw [Decimal.toDouble]
  split
  · exact isNaN_ofScientific 0 true 1
  · split
    · decide +kernel
    · exact isNaN_ofScientific _ _ _

/-- Without a sign, nothing but the word for a NaN is read as one. -/
theorem isNaN_of_readUnsigned? (h : readUnsigned? cs = some d) :
    d.isNaN = true ↔ cs.map Char.toLower = "nan".toList := by
  have word {w : String} :
      String.ofList (cs.map Char.toLower) = w ↔ cs.map Char.toLower = w.toList := by
    rw [← String.ofList_inj, String.ofList_toList]
  rw [readUnsigned?] at h
  simp only [word] at h
  split at h
  case isTrue infinite =>
    cases h
    refine iff_of_false (by decide +kernel) ?_
    obtain eq | eq := infinite <;> rw [eq] <;> decide
  case isFalse =>
    split at h
    case isTrue nan =>
      cases h
      exact iff_of_true (by decide +kernel) nan
    case isFalse other =>
      obtain ⟨decimal, -, rfl⟩ := Option.map_eq_some_iff.1 h
      exact iff_of_false (by rw [isNaN_toDouble]; exact Bool.false_ne_true) other

theorem readUnsigned?_of_word (h : cs.map Char.toLower = "nan".toList) :
    (readUnsigned? cs).isSome = true := by
  rw [readUnsigned?, h, if_neg (by decide), if_pos (by decide)]
  rfl

/-- A sign in front of a word is found, and nothing else is taken for one. -/
theorem map_splitSign :
    (splitSign cs).2.map Char.toLower = "nan".toList ↔
      cs.map Char.toLower ∈ ["nan".toList, "+nan".toList, "-nan".toList] := by
  unfold splitSign
  split
  · simp
  · simp
  · rename_i minus plus
    refine ⟨fun h => h ▸ List.mem_cons_self, fun h => ?_⟩
    -- The lower case form of a letter is no sign.
    have unsigned {mark : Char} {w : List Char} (early : mark.toNat < 0x61)
        (other : ∀ rest, cs ≠ mark :: rest) : cs.map Char.toLower ≠ mark :: w := fun h => by
      obtain ⟨c, rest, rfl, folded, -⟩ := List.map_eq_cons_iff.1 h
      exact other rest (by rw [Text.eq_of_toLower_eq early folded])
    simp only [List.mem_cons, List.not_mem_nil, or_false] at h
    obtain h | h | h := h
    · exact h
    · exact absurd h (unsigned (by decide) fun rest h => plus rest h)
    · exact absurd h (unsigned (by decide) fun rest h => minus rest h)

/-- **The texts that are read as a NaN.** -/
theorem isNaN_of_readDouble? (h : readDouble? (Text.trim s) = some d) :
    d.isNaN = true ↔ Text.SpellsNaN s := by
  rw [readDouble?, Text.trim, String.toList_ofList] at h
  obtain ⟨unsigned, read, signed⟩ := Option.map_eq_some_iff.1 h
  have read : readUnsigned? (splitSign (Text.trimBlanks s.toList)).2 = some unsigned := read
  have sign (negative : Bool) :
      (if negative then -unsigned else unsigned).isNaN = unsigned.isNaN := by
    cases negative with
    | true => exact isNaN_neg unsigned
    | false => rfl
  rw [Text.SpellsNaN, ← map_splitSign, ← isNaN_of_readUnsigned? read, ← signed]
  exact iff_of_eq (congrArg (· = true) (sign _))

theorem readDouble?_of_spellsNaN (h : Text.SpellsNaN s) :
    (readDouble? (Text.trim s)).isSome = true := by
  rw [Text.SpellsNaN, ← map_splitSign] at h
  rw [readDouble?, Text.trim, String.toList_ofList]
  simpa using readUnsigned?_of_word h

end Number

/-! ## Identical values -/

namespace Value

variable (v : Value)

mutual

/-- A text that spells a NaN is in the value, be it a key or an entry at any depth. -/
def spellsNaN : Value → Bool
  | .string s => decide (Text.SpellsNaN s)
  | .array entries => entriesSpellNaN entries
  | _ => false

/-- A text that spells a NaN is in one of the entries. -/
def entriesSpellNaN : List (Value × Value) → Bool
  | [] => false
  | (key, value) :: rest => spellsNaN key || spellsNaN value || entriesSpellNaN rest

end

theorem equalStrings_self (s : String) : equalStrings s s = !decide (Text.SpellsNaN s) := by
  rw [equalStrings]
  simp only [number?]
  cases h : Number.readDouble? (Text.trim s) with
  | none =>
    have : ¬Text.SpellsNaN s := fun nan => by
      have := Number.readDouble?_of_spellsNaN nan
      rw [h] at this
      cases this
    simp [this]
  | some d =>
    have nan := Number.isNaN_of_readDouble? h
    have same : (d == d) = true ↔ d.isNaN = false := Number.beq_self_iff
    simp only
    rw [Bool.eq_iff_iff, same, ← Bool.not_eq_true, nan]
    simp

mutual

/-- Identical values are loosely equal, unless a text in them spells a NaN. -/
theorem looselyEqual_of_identical : ∀ {a b : Value}, a.identical b = true →
    a.looselyEqual b = !a.spellsNaN
  | .null, .null, _ => rfl
  | .bool a, .bool b, h => by
    simpa [looselyEqual, truthy, spellsNaN, identical] using h
  | .long a, .long b, h => by
    obtain rfl : a = b := by simpa [identical] using h
    simpa [looselyEqual, equalNumbers, number?, spellsNaN, Number.beq_self_iff] using
      Number.isNaN_ofInt _
  | .double a, .double b, h => by
    simpa [looselyEqual, equalNumbers, number?, spellsNaN, identical] using h
  | .string a, .string b, h => by
    obtain rfl : a = b := by simpa [identical] using h
    rw [looselyEqual, equalStrings_self, spellsNaN]
  | .array xs, .array ys, h => by
    rw [looselyEqual, spellsNaN]
    exact looselyEqualEntries_of_identical (by simpa [identical] using h)
  | .object a, .object b, h => by
    simpa [looselyEqual, spellsNaN, identical] using h

/-- Identical entries are loosely equal, unless a text in them spells a NaN. -/
theorem looselyEqualEntries_of_identical : ∀ {xs ys : List (Value × Value)},
    identicalEntries xs ys = true → looselyEqualEntries xs ys = !entriesSpellNaN xs
  | [], [], _ => rfl
  | (k, v) :: xs, (l, w) :: ys, h => by
    simp only [identicalEntries, Bool.and_eq_true] at h
    rw [looselyEqualEntries, looselyEqual_of_identical h.1.1, looselyEqual_of_identical h.1.2,
      looselyEqualEntries_of_identical h.2, entriesSpellNaN]
    simp

end

/-! ## Symmetry -/

/-- What holds of arrays with keys and values of which it holds, and of all other values, holds of
every value. -/
@[elab_as_elim]
theorem induction {motive : Value → Prop} (null : motive .null) (bool : ∀ b, motive (.bool b))
    (long : ∀ n, motive (.long n)) (double : ∀ d, motive (.double d))
    (string : ∀ s, motive (.string s))
    (array : ∀ entries, (∀ entry ∈ entries, motive entry.1 ∧ motive entry.2) →
      motive (.array entries))
    (object : ∀ ref, motive (.object ref)) (v : Value) : motive v := by
  apply Value.rec (motive_1 := motive)
    (motive_2 := fun entries => ∀ entry ∈ entries, motive entry.1 ∧ motive entry.2)
    (motive_3 := fun entry => motive entry.1 ∧ motive entry.2)
  case null => exact null
  case bool => exact bool
  case long => exact long
  case double => exact double
  case string => exact string
  case array => exact array
  case object => exact object
  case nil => simp
  case cons =>
    intro entry rest first others
    exact List.forall_mem_cons.2 ⟨first, others⟩
  case mk =>
    intro key value left right
    exact ⟨left, right⟩

/-- Null is compared by emptiness, with booleans too. -/
theorem looselyEqual_null_left : Value.null.looselyEqual v = !v.truthy := by
  cases v <;> simp [looselyEqual, truthy]

theorem looselyEqual_null_right : v.looselyEqual .null = !v.truthy := by
  cases v <;> simp [looselyEqual, truthy]

/-- A boolean is compared by truth, with null too: null is false, and so is what is equal to it. -/
theorem looselyEqual_bool_left (b : Bool) (v : Value) :
    (Value.bool b).looselyEqual v = (b == v.truthy) := by
  cases v <;> simp [looselyEqual, truthy]

theorem looselyEqual_bool_right (b : Bool) (v : Value) :
    v.looselyEqual (.bool b) = (b == v.truthy) := by
  cases v <;> simp [looselyEqual, truthy, BEq.comm]

theorem equalNumbers_comm (a b : Value) : equalNumbers a b = equalNumbers b a := by
  rw [equalNumbers, equalNumbers]
  cases a.number? with
  | none => cases b.number? <;> rfl
  | some x =>
    cases b.number? with
    | none => rfl
    | some y => exact BEq.comm

theorem equalStrings_comm (a b : String) : equalStrings a b = equalStrings b a := by
  rw [equalStrings, equalStrings]
  cases (Value.string a).number? with
  | none => cases (Value.string b).number? <;> exact BEq.comm
  | some x =>
    cases (Value.string b).number? with
    | none => exact BEq.comm
    | some y => exact BEq.comm

/-- The order of two lists of entries does not matter if it matters for none of the keys and values
of one of them. -/
theorem looselyEqualEntries_comm {xs : List (Value × Value)}
    (h : ∀ x ∈ xs, (∀ b, x.1.looselyEqual b = b.looselyEqual x.1) ∧
      ∀ b, x.2.looselyEqual b = b.looselyEqual x.2) (ys : List (Value × Value)) :
    looselyEqualEntries xs ys = looselyEqualEntries ys xs := by
  induction xs generalizing ys with
  | nil => cases ys <;> rfl
  | cons x xs ih =>
    cases ys with
    | nil => rfl
    | cons y ys =>
      obtain ⟨keys, values⟩ := h x List.mem_cons_self
      have rest := ih (fun z mem => h z (List.mem_cons_of_mem x mem)) ys
      rw [looselyEqualEntries, looselyEqualEntries, keys, values, rest]

/-- **Loose equality is symmetric**, for values of any two kinds. -/
theorem looselyEqual_comm (a b : Value) : a.looselyEqual b = b.looselyEqual a := by
  -- The rules for null and for booleans hold on either side; for two values of other kinds that
  -- differ, or two numbers, the last rule is left in both directions.
  induction a using Value.induction generalizing b with
  | null => rw [looselyEqual_null_left, looselyEqual_null_right]
  | bool x => rw [looselyEqual_bool_left, looselyEqual_bool_right]
  | array xs ih =>
    cases b with
    | null => rw [looselyEqual_null_left, looselyEqual_null_right]
    | bool y => rw [looselyEqual_bool_left, looselyEqual_bool_right]
    | array ys =>
      rw [looselyEqual, looselyEqual]
      exact looselyEqualEntries_comm ih ys
    | _ => simp only [looselyEqual, equalNumbers_comm]
  | string s =>
    cases b with
    | null => rw [looselyEqual_null_left, looselyEqual_null_right]
    | bool y => rw [looselyEqual_bool_left, looselyEqual_bool_right]
    | string t =>
      rw [looselyEqual, looselyEqual]
      exact equalStrings_comm s t
    | _ => simp only [looselyEqual, equalNumbers_comm]
  | object ref =>
    cases b with
    | null => rw [looselyEqual_null_left, looselyEqual_null_right]
    | bool y => rw [looselyEqual_bool_left, looselyEqual_bool_right]
    | object other =>
      rw [looselyEqual, looselyEqual]
      exact BEq.comm
    | _ => simp only [looselyEqual, equalNumbers_comm]
  | long | double =>
    cases b with
    | null => rw [looselyEqual_null_left, looselyEqual_null_right]
    | bool y => rw [looselyEqual_bool_left, looselyEqual_bool_right]
    | _ => simp only [looselyEqual, equalNumbers_comm]

/-! ## Integers -/

theorem rational?_long (n : Int64) :
    Number.rational? (Float.ofInt n.toInt) = some (Number.nearest n.toInt : Rat) := by
  refine Number.rational?_ofInt ?_
  have := Int64.le_toInt n
  have := Int64.toInt_lt n
  omega

/-- Integers are loosely equal if they are rounded to the same number. -/
theorem looselyEqual_long (a b : Int64) :
    (Value.long a).looselyEqual (.long b) =
      decide (Number.nearest a.toInt = Number.nearest b.toInt) := by
  rw [Bool.eq_iff_iff, decide_eq_true_iff, ← Int.cast_inj (α := Rat),
    ← Number.beq_iff (rational?_long a) (rational?_long b)]
  rfl

end Value

/-- Integers are ordered as the numbers that they are rounded to. -/
theorem BinaryOp.apply_lt_long (a b : Int64) :
    BinaryOp.lt.apply (.long a) (.long b) =
      .bool (decide (Number.nearest a.toInt < Number.nearest b.toInt)) := by
  have order := Number.lt_iff (Value.rational?_long a) (Value.rational?_long b)
  rw [Int.cast_lt] at order
  exact congrArg Value.bool (decide_eq_decide.2 order)

theorem BinaryOp.apply_gt_long (a b : Int64) :
    BinaryOp.gt.apply (.long a) (.long b) =
      .bool (decide (Number.nearest b.toInt < Number.nearest a.toInt)) :=
  BinaryOp.apply_lt_long b a

end StackScript
