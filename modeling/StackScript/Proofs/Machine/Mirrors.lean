import Mathlib.Data.List.Forall2
import StackScript.Proofs.Dispatch.Cache
import StackScript.Proofs.Machine.Moves

/-!
# Frames that mirror each other

Two runs of a program that make different objects do the same as long as each object of the one
stands for an object of the other: no instruction looks at the identity of an object but to compare
it. Values mirror each other if they differ in objects that stand for each other, and frames if they
hold such values in the same places. What two frames do that mirror each other, mirrors each other
again. That a value mirrors itself where no objects stand for each other says that there is no
object in it.

## Main definitions

* `Pairing`: which objects stand for which
* `Value.Mirrors`, `Frame.Mirrors`, `Request.Mirrors`, `Step.Mirrors`: the same but for such objects
* `ResultsMirror`: results in a relation, or errors that mirror each other

## Main results

* `Frame.Mirrors.execute`: what an instruction makes of frames that mirror each other
* `Step.Mirrors.step`, `Step.Mirrors.resume`: what such frames do next
-/

namespace StackScript

/-! ## Arrays -/

/-- Arrays of one size with related elements. -/
def ArraysAgree {α β : Type} (R : α → β → Prop) (a : Array α) (b : Array β) : Prop :=
  ∀ i : Nat, Option.Rel R a[i]? b[i]?

namespace ArraysAgree

variable {α β : Type} {R : α → β → Prop} {a : Array α} {b : Array β}

theorem empty : ArraysAgree R (#[] : Array α) (#[] : Array β) := fun _ => .none

theorem size_eq (h : ArraysAgree R a b) : a.size = b.size := by
  refine Nat.le_antisymm (Nat.le_of_not_lt fun hlt => ?_) (Nat.le_of_not_lt fun hlt => ?_)
  · have := h b.size
    rw [Array.getElem?_eq_getElem hlt, Array.getElem?_eq_none (Nat.le_refl _)] at this
    cases this
  · have := h a.size
    rw [Array.getElem?_eq_getElem hlt, Array.getElem?_eq_none (Nat.le_refl _)] at this
    cases this

theorem push (h : ArraysAgree R a b) {x : α} {y : β} (hxy : R x y) :
    ArraysAgree R (a.push x) (b.push y) := by
  intro i
  rw [Array.getElem?_push, Array.getElem?_push, h.size_eq]
  split
  · exact .some hxy
  · exact h i

theorem set (h : ArraysAgree R a b) (n : Nat) {x : α} {y : β} (hxy : R x y) :
    ArraysAgree R (a.setIfInBounds n x) (b.setIfInBounds n y) := by
  intro i
  rw [Array.getElem?_setIfInBounds, Array.getElem?_setIfInBounds, h.size_eq]
  split
  · split
    · exact .some hxy
    · exact .none
  · exact h i

theorem modify (h : ArraysAgree R a b) (n : Nat) {f : α → α} {g : β → β}
    (hfg : ∀ x y, R x y → R (f x) (g y)) : ArraysAgree R (a.modify n f) (b.modify n g) := by
  intro i
  rw [Array.getElem?_modify, Array.getElem?_modify]
  split
  · have := h i
    generalize a[i]? = x at this ⊢
    generalize b[i]? = y at this ⊢
    cases this with
    | some hxy => exact .some (hfg _ _ hxy)
    | none => exact .none
  · exact h i

theorem mono {S : α → β → Prop} (h : ArraysAgree R a b) (weaker : ∀ x y, R x y → S x y) :
    ArraysAgree S a b := by
  intro i
  have := h i
  generalize a[i]? = x at this ⊢
  generalize b[i]? = y at this ⊢
  cases this with
  | some related => exact .some (weaker _ _ related)
  | none => exact .none

theorem append {c : Array α} {d : Array β} (h : ArraysAgree R a b) (h' : ArraysAgree R c d) :
    ArraysAgree R (a ++ c) (b ++ d) := by
  intro i
  rw [Array.getElem?_append, Array.getElem?_append, h.size_eq]
  split
  · exact h i
  · exact h' _

theorem replicate (n : Nat) {x : α} {y : β} (h : R x y) :
    ArraysAgree R (Array.replicate n x) (Array.replicate n y) := by
  intro i
  rw [Array.getElem?_replicate, Array.getElem?_replicate]
  split
  · exact .some h
  · exact .none

end ArraysAgree

/-! ## Objects that stand for each other -/

/-- Which objects stand for which: objects of one type, which is one of those given, and none stands
for two. -/
structure Pairing (Given : RuntimeType → Prop) where
  pairs : ObjectRef → ObjectRef → Prop
  typed : ∀ {a b}, pairs a b → a.type = b.type
  given : ∀ {a b}, pairs a b → Given a.type
  unique : ∀ {a b a' b'}, pairs a b → pairs a' b' → (a.id = a'.id ↔ b.id = b'.id)

variable {Given : RuntimeType → Prop}

namespace Pairing

/-- No objects stand for each other. -/
def none : Pairing Given where
  pairs _ _ := False
  typed := False.elim
  given := False.elim
  unique := False.elim

/-- One pair more, of objects that stand for no others. -/
def add (p : Pairing Given) (a b : ObjectRef) (typed : a.type = b.type)
    (given : Given a.type)
    (fresh : ∀ a' b', p.pairs a' b' → a'.id ≠ a.id ∧ b'.id ≠ b.id) : Pairing Given where
  pairs a' b' := p.pairs a' b' ∨ a' = a ∧ b' = b
  typed h := by
    obtain h | ⟨rfl, rfl⟩ := h
    · exact p.typed h
    · exact typed
  given h := by
    obtain h | ⟨rfl, rfl⟩ := h
    · exact p.given h
    · exact given
  unique h h' := by
    obtain h | ⟨rfl, rfl⟩ := h <;> obtain h' | ⟨rfl, rfl⟩ := h'
    · exact p.unique h h'
    · exact iff_of_false (fresh _ _ h).1 (fresh _ _ h).2
    · exact iff_of_false (fresh _ _ h').1.symm (fresh _ _ h').2.symm
    · exact iff_of_true rfl rfl

/-- The other way to pair objects has all the pairs. -/
instance : LE (Pairing Given) := ⟨fun p q => ∀ a b, p.pairs a b → q.pairs a b⟩

variable {p q r : Pairing Given}

theorem le_refl (p : Pairing Given) : p ≤ p := fun _ _ => id

theorem le_trans (h : p ≤ q) (h' : q ≤ r) : p ≤ r := fun a b pair => h' a b (h a b pair)

end Pairing

variable {p q : Pairing Given} {cursor cursor' : Cursor}

/-! ## Values -/

/-- The values differ in objects that stand for each other at most. -/
inductive Value.Mirrors (p : Pairing Given) : Value → Value → Prop where
  | null : Mirrors p .null .null
  | bool (b) : Mirrors p (.bool b) (.bool b)
  | long (n) : Mirrors p (.long n) (.long n)
  | double (d) : Mirrors p (.double d) (.double d)
  | string (s) : Mirrors p (.string s) (.string s)
  | array {xs ys : List (Value × Value)} : xs.length = ys.length →
      (∀ (i : Nat) x y, xs[i]? = some x → ys[i]? = some y → Mirrors p x.1 y.1) →
      (∀ (i : Nat) x y, xs[i]? = some x → ys[i]? = some y → Mirrors p x.2 y.2) →
      Mirrors p (.array xs) (.array ys)
  | object {a b : ObjectRef} : p.pairs a b → Mirrors p (.object a) (.object b)

/-- Entries whose keys and values mirror each other. -/
def EntryMirrors (p : Pairing Given) (x y : Value × Value) : Prop :=
  x.1.Mirrors p y.1 ∧ x.2.Mirrors p y.2

/-- Entries of arrays that mirror each other. -/
abbrev EntriesMirror (p : Pairing Given) : List (Value × Value) → List (Value × Value) → Prop :=
  List.Forall₂ (EntryMirrors p)

/-- Lists of values that mirror each other. -/
abbrev ValuesMirror (p : Pairing Given) : List Value → List Value → Prop :=
  List.Forall₂ (Value.Mirrors p)

namespace Value

variable {v w v' w' : Value} {xs ys : List (Value × Value)}

theorem mirrors_array : (array xs).Mirrors p (array ys) ↔ EntriesMirror p xs ys := by
  rw [EntriesMirror, List.forall₂_iff_get]
  constructor
  · intro h
    cases h with | array length keys values =>
    exact ⟨length, fun i hx hy => ⟨keys i _ _ (List.getElem?_eq_getElem hx)
      (List.getElem?_eq_getElem hy), values i _ _ (List.getElem?_eq_getElem hx)
      (List.getElem?_eq_getElem hy)⟩⟩
  · rintro ⟨length, entries⟩
    have entry {i : Nat} {x y} (hx : xs[i]? = some x) (hy : ys[i]? = some y) :
        EntryMirrors p x y := by
      obtain ⟨ltx, rfl⟩ := List.getElem?_eq_some_iff.mp hx
      obtain ⟨lty, rfl⟩ := List.getElem?_eq_some_iff.mp hy
      exact entries i ltx lty
    exact .array length (fun i x y hx hy => (entry hx hy).1) fun i x y hx hy => (entry hx hy).2

namespace Mirrors

theorem imp {Given' : RuntimeType → Prop} {r : Pairing Given'} (h : v.Mirrors p w)
    (imp : ∀ a b, p.pairs a b → r.pairs a b) : v.Mirrors r w := by
  induction h with
  | null => exact .null
  | bool b => exact .bool b
  | long n => exact .long n
  | double d => exact .double d
  | string s => exact .string s
  | array length _ _ keys values => exact .array length keys values
  | object pair => exact .object (imp _ _ pair)

theorem mono (h : v.Mirrors p w) (le : p ≤ q) : v.Mirrors q w := h.imp le

theorem kind (h : v.Mirrors p w) : v.kind = w.kind := by cases h <;> rfl

theorem text (h : v.Mirrors p w) : v.text = w.text := by
  cases h with
  | object pair => simp only [Value.text, p.typed pair]
  | _ => rfl

theorem truthy (h : v.Mirrors p w) : v.truthy = w.truthy := by
  cases h with
  | @array xs ys length =>
    cases xs <;> cases ys <;> first | rfl | cases length
  | _ => rfl

theorem number? (h : v.Mirrors p w) : v.number? = w.number? := by cases h <;> rfl

theorem isInstanceOf (h : v.Mirrors p w) (type : QualifiedName) :
    v.isInstanceOf type = w.isInstanceOf type := by
  cases h with
  | object pair => simp only [Value.isInstanceOf, object?, p.typed pair]
  | _ => rfl

theorem isExactly (h : v.Mirrors p w) (type : QualifiedName) :
    v.isExactly type = w.isExactly type := by
  cases h with
  | object pair => simp only [Value.isExactly, object?, p.typed pair]
  | _ => rfl

theorem object? (h : v.Mirrors p w) : Option.Rel p.pairs v.object? w.object? := by
  cases h with
  | object pair => exact .some pair
  | _ => exact .none

theorem entries? (h : v.Mirrors p w) : Option.Rel (EntriesMirror p) v.entries? w.entries? := by
  cases h with
  | array length keys values => exact .some (mirrors_array.mp (.array length keys values))
  | _ => exact .none

end Mirrors

/-! ### Comparisons -/

/-- What has been shown of the keys and of the values of two arrays, pair by pair. -/
theorem forall₂_of_array {P : Value → Value → Prop} (length : xs.length = ys.length)
    (keys : ∀ (i : Nat) x y, xs[i]? = some x → ys[i]? = some y → P x.1 y.1)
    (values : ∀ (i : Nat) x y, xs[i]? = some x → ys[i]? = some y → P x.2 y.2) :
    List.Forall₂ (fun x y => P x.1 y.1 ∧ P x.2 y.2) xs ys :=
  List.forall₂_iff_get.mpr ⟨length, fun i hx hy =>
    ⟨keys i _ _ (List.getElem?_eq_getElem hx) (List.getElem?_eq_getElem hy),
      values i _ _ (List.getElem?_eq_getElem hx) (List.getElem?_eq_getElem hy)⟩⟩

/-- The values compare in one way to values that mirror each other. -/
def ComparesAlike (p : Pairing Given) (equal : Value → Value → Bool) (v w : Value) : Prop :=
  ∀ v' w', v'.Mirrors p w' → equal v v' = equal w w'

/-- Entries are compared as their keys and values are. -/
theorem looselyEqualEntries_of_mirrors {xs' ys' : List (Value × Value)}
    (h : List.Forall₂ (fun x y => ComparesAlike p looselyEqual x.1 y.1 ∧
      ComparesAlike p looselyEqual x.2 y.2) xs ys)
    (h' : EntriesMirror p xs' ys') :
    looselyEqualEntries xs xs' = looselyEqualEntries ys ys' := by
  induction h generalizing xs' ys' with
  | nil => cases h' <;> rfl
  | cons same _ ih =>
    cases h' with
    | nil => rfl
    | cons first rest =>
      simp only [looselyEqualEntries, same.1 _ _ first.1, same.2 _ _ first.2, ih rest]

theorem identicalEntries_of_mirrors {xs' ys' : List (Value × Value)}
    (h : List.Forall₂ (fun x y => ComparesAlike p identical x.1 y.1 ∧
      ComparesAlike p identical x.2 y.2) xs ys)
    (h' : EntriesMirror p xs' ys') : identicalEntries xs xs' = identicalEntries ys ys' := by
  induction h generalizing xs' ys' with
  | nil => cases h' <;> rfl
  | cons same _ ih =>
    cases h' with
    | nil => rfl
    | cons first rest =>
      simp only [identicalEntries, same.1 _ _ first.1, same.2 _ _ first.2, ih rest]

theorem Mirrors.looselyEqual (h : v.Mirrors p w) : ComparesAlike p Value.looselyEqual v w := by
  induction h with
  | @array xs ys length keys values keys_ih values_ih =>
    intro v' w' h'
    have truth := (Mirrors.array length keys values).truthy
    cases h' with
    | array length' keys' values' =>
      simp only [Value.looselyEqual]
      exact looselyEqualEntries_of_mirrors (forall₂_of_array length keys_ih values_ih)
        (mirrors_array.mp (.array length' keys' values'))
    | null | bool => simp only [Value.looselyEqual, truth]
    | _ => simp only [Value.looselyEqual, equalNumbers, Value.number?]
  | object pair =>
    intro v' w' h'
    cases h' with
    | object pair' =>
      simp only [Value.looselyEqual]
      exact Bool.eq_iff_iff.mpr (by simpa only [beq_iff_eq] using p.unique pair pair')
    | null | bool => simp only [Value.looselyEqual, Value.truthy]
    | _ => simp only [Value.looselyEqual, equalNumbers, Value.number?]
  | _ =>
    intro v' w' h'
    have truth := h'.truthy
    cases h' with
    | array => simp only [Value.looselyEqual, equalNumbers, Value.number?, truth]
    | object => simp only [Value.looselyEqual, equalNumbers, Value.number?, truth]
    | _ => rfl

theorem Mirrors.identical (h : v.Mirrors p w) : ComparesAlike p Value.identical v w := by
  induction h with
  | array length _ _ keys values =>
    intro v' w' h'
    cases h' with
    | array length' keys' values' =>
      simp only [Value.identical]
      exact identicalEntries_of_mirrors (forall₂_of_array length keys values)
        (mirrors_array.mp (.array length' keys' values'))
    | _ => simp only [Value.identical]
  | object pair =>
    intro v' w' h'
    cases h' with
    | object pair' =>
      simp only [Value.identical]
      exact Bool.eq_iff_iff.mpr (by simpa only [beq_iff_eq] using p.unique pair pair')
    | _ => simp only [Value.identical]
  | _ =>
    intro v' w' h'
    cases h' <;> simp only [Value.identical]

/-! ### Operators -/

theorem mirrors_arithmetic (onLongs onDoubles) (h : v.Mirrors p w) (h' : v'.Mirrors p w') :
    (BinaryOp.arithmetic onLongs onDoubles v v').Mirrors p
      (BinaryOp.arithmetic onLongs onDoubles w w') := by
  have operand : v.operand = w.operand := by rw [operand, h.number?, operand]
  have operand' : v'.operand = w'.operand := by rw [Value.operand, h'.number?, Value.operand]
  cases h <;> cases h' <;>
    first
    | exact .long _
    | (simp only [BinaryOp.arithmetic, operand, operand']; exact .double _)

theorem mirrors_binary (op : BinaryOp) (h : v.Mirrors p w) (h' : v'.Mirrors p w') :
    (op.apply v v').Mirrors p (op.apply w w') := by
  have operand : v.operand = w.operand := by rw [operand, h.number?, operand]
  have operand' : v'.operand = w'.operand := by rw [Value.operand, h'.number?, Value.operand]
  cases op with
  | add | sub | mul => exact mirrors_arithmetic _ _ h h'
  | concat => simp only [BinaryOp.apply, h.text, h'.text]; exact .string _
  | eq | notEq => simp only [BinaryOp.apply, h.looselyEqual _ _ h']; exact .bool _
  | identical => simp only [BinaryOp.apply, h.identical _ _ h']; exact .bool _
  | lt | gt => simp only [BinaryOp.apply, operand, operand']; exact .bool _
  | and | or => simp only [BinaryOp.apply, h.truthy, h'.truthy]; exact .bool _

theorem mirrors_unary (op : UnaryOp) (h : v.Mirrors p w) :
    (op.apply v).Mirrors p (op.apply w) := by
  cases op with
  | not => simp only [UnaryOp.apply, h.truthy]; exact .bool _
  | neg => exact mirrors_binary .sub (.long 0) h

/-! ### Arrays -/

theorem numberKeys_of_mirrors (h : EntriesMirror p xs ys) (next : Int64) :
    EntriesMirror p (numberKeys next xs) (numberKeys next ys) := by
  induction h generalizing next with
  | nil => exact .nil
  | @cons x y xs ys first _ ih =>
    obtain ⟨key, value⟩ := x
    obtain ⟨key', value'⟩ := y
    obtain ⟨keys, values⟩ := first
    dsimp only at keys values
    cases keys with
    | null => exact .cons ⟨.long _, values⟩ (ih _)
    | long n => exact .cons ⟨.long _, values⟩ (ih _)
    | bool b => exact .cons ⟨.bool b, values⟩ (ih _)
    | double d => exact .cons ⟨.double d, values⟩ (ih _)
    | string s => exact .cons ⟨.string s, values⟩ (ih _)
    | array length keys entries => exact .cons ⟨.array length keys entries, values⟩ (ih _)
    | object pair => exact .cons ⟨.object pair, values⟩ (ih _)

theorem mirrors_ofEntries (h : EntriesMirror p xs ys) : (ofEntries xs).Mirrors p (ofEntries ys) :=
  mirrors_array.mpr (numberKeys_of_mirrors h 0)

theorem mirrors_ofList {items items' : List Value} (h : ValuesMirror p items items') :
    (ofList items).Mirrors p (ofList items') := by
  suffices entries : ∀ next, EntriesMirror p (numberFrom next items) (numberFrom next items') from
    mirrors_array.mpr (entries 0)
  induction h with
  | nil => exact fun _ => .nil
  | cons first _ ih => exact fun next => .cons ⟨.long _, first⟩ (ih (next + 1))

theorem pairs_of_mirrors {items items' : List Value} (h : ValuesMirror p items items') :
    EntriesMirror p (pairs items) (pairs items') := by
  induction items using pairs.induct generalizing items' with
  | case1 key value rest ih =>
    obtain _ | ⟨keys, _ | ⟨values, rest⟩⟩ := h
    exact .cons ⟨keys, values⟩ (ih rest)
  | case2 items few =>
    have none : pairs items = [] := by
      unfold pairs
      split
      · exact (few _ _ _ rfl).elim
      · rfl
    have none' : pairs items' = [] := by
      unfold pairs
      split
      · obtain _ | ⟨_, _ | ⟨_, _⟩⟩ := h
        exact (few _ _ _ rfl).elim
      · rfl
    rw [none, none']
    exact .nil

/-- A conversion takes values as they are, or makes one of what they have in common. -/
theorem Mirrors.convert? (h : v.Mirrors p w) (representation : Representation) :
    Option.Rel (Mirrors p) (v.convert? representation) (w.convert? representation) := by
  cases representation with
  | value => exact .some h
  | bool =>
    simp only [Value.convert?, h.truthy]
    exact .some (.bool _)
  | long =>
    cases h with
    | null => exact .some (.long _)
    | bool b => exact .some (.long _)
    | long n => exact .some (.long _)
    | double d => exact .some (.long _)
    | string s =>
      simp only [Value.convert?]
      cases longOfString? s with
      | none => exact .none
      | some n => exact .some (.long n)
    | array => exact .none
    | object => exact .none
  | double =>
    simp only [Value.convert?, h.number?]
    cases w.number? with
    | none => exact .none
    | some d => exact .some (.double d)
  | string => cases h <;> first | exact .none | exact .some (.string _)
  | array =>
    cases h with
    | array length keys values => exact .some (.array length keys values)
    | _ => exact .none
  | object =>
    cases h with
    | object pair => exact .some (.object pair)
    | _ => exact .none

end Value

/-! ## Results -/

/-- The errors differ in objects that stand for each other, or in the letter case of the name of a
missing method, at most. -/
inductive DispatchError.Mirrors (p : Pairing Given) : DispatchError → DispatchError → Prop where
  | thrown {v w} : v.Mirrors p w → Mirrors p (.thrown v) (.thrown w)
  | alike {e e'} : (∀ v, e ≠ .thrown v) → e.Alike e' → Mirrors p e e'

/-- Results in a relation, or errors that mirror each other. -/
inductive ResultsMirror {α β : Type} (p : Pairing Given) (R : α → β → Prop) :
    Except DispatchError α → Except DispatchError β → Prop where
  | ok {a b} : R a b → ResultsMirror p R (.ok a) (.ok b)
  | error {e e'} : DispatchError.Mirrors p e e' → ResultsMirror p R (.error e) (.error e')

/-- An error that is no thrown value mirrors itself. -/
theorem DispatchError.Mirrors.same {e : DispatchError} (h : ∀ v, e ≠ .thrown v) : e.Mirrors p e :=
  .alike h (.refl e)

theorem DispatchError.Mirrors.failed (failure : Failure) :
    DispatchError.Mirrors p (.failed failure) (.failed failure) := .same nofun

theorem DispatchError.Mirrors.mono {e e' : DispatchError} (h : e.Mirrors p e') (le : p ≤ q) :
    e.Mirrors q e' := by
  cases h with
  | thrown value => exact .thrown (value.mono le)
  | alike ordinary alike => exact .alike ordinary alike

namespace ResultsMirror

variable {α β γ δ : Type} {R S : α → β → Prop} {T : γ → δ → Prop} {x : Except DispatchError α}
  {y : Except DispatchError β}

theorem mono (h : ResultsMirror p R x y) (le : p ≤ q) (weaker : ∀ a b, R a b → S a b) :
    ResultsMirror q S x y := by
  cases h with
  | ok results => exact .ok (weaker _ _ results)
  | error errors => exact .error (errors.mono le)

theorem bind {f : α → Except DispatchError γ} {g : β → Except DispatchError δ}
    (h : ResultsMirror p R x y) (h' : ∀ a b, R a b → ResultsMirror p T (f a) (g b)) :
    ResultsMirror p T (x >>= f) (y >>= g) := by
  cases h with
  | ok results => exact h' _ _ results
  | error errors => exact .error errors

theorem failed (failure : Failure) :
    ResultsMirror p R (.error (.failed failure)) (.error (.failed failure)) :=
  .error (.failed failure)

end ResultsMirror

/-! ## Frames -/

/-- The same in both places, but for objects that stand for each other. -/
inductive Slot.Mirrors (p : Pairing Given) : Slot → Slot → Prop where
  | value {v w} : v.Mirrors p w → Mirrors p (.value v) (.value w)
  | context : Mirrors p .context .context
  | enumerator (id) : Mirrors p (.enumerator id) (.enumerator id)

inductive FrameArg.Mirrors (p : Pairing Given) : FrameArg → FrameArg → Prop where
  | value {v w} : v.Mirrors p w → Mirrors p (.value v) (.value w)
  | context : Mirrors p .context .context

namespace Slot.Mirrors

variable {slot slot' : Slot}

theorem unset : Slot.Mirrors p .unset .unset := .value .null

theorem mono (h : slot.Mirrors p slot') (le : p ≤ q) : slot.Mirrors q slot' := by
  cases h with
  | value value => exact .value (value.mono le)
  | context => exact .context
  | enumerator id => exact .enumerator id

theorem toValue (h : slot.Mirrors p slot') : slot.toValue.Mirrors p slot'.toValue := by
  cases h with
  | value value => exact value
  | context => exact .string _
  | enumerator => exact .null

theorem toArg (h : slot.Mirrors p slot') : slot.toArg.Mirrors p slot'.toArg := by
  cases h with
  | value value => exact .value value
  | context => exact .context
  | enumerator => exact .value .null

theorem ofArg {arg arg' : FrameArg} (h : arg.Mirrors p arg') :
    (Slot.ofArg arg).Mirrors p (Slot.ofArg arg') := by
  cases h with
  | value value => exact .value value
  | context => exact .context

end Slot.Mirrors

theorem FrameArg.Mirrors.mono {arg arg' : FrameArg} (h : arg.Mirrors p arg') (le : p ≤ q) :
    arg.Mirrors q arg' := by
  cases h with
  | value value => exact .value (value.mono le)
  | context => exact .context

/-- Enumerators on entries that mirror each other. -/
structure Cursor.Mirrors (p : Pairing Given) (cursor cursor' : Cursor) : Prop where
  current : Option.Rel (EntryMirrors p) cursor.current cursor'.current
  rest : EntriesMirror p cursor.rest cursor'.rest

inductive Completion.Mirrors (p : Pairing Given) : Completion → Completion → Prop where
  | leave (target remaining) : Mirrors p (.leave target remaining) (.leave target remaining)
  | rethrow {v w} : v.Mirrors p w → Mirrors p (.rethrow v) (.rethrow w)

/-- Frames at one place that hold the same but for objects that stand for each other. -/
structure Frame.Mirrors (p : Pairing Given) (frame frame' : Frame) : Prop where
  pc : frame.pc = frame'.pc
  receiver : Option.Rel (Value.Mirrors p) frame.receiver frame'.receiver
  args : ArraysAgree (Slot.Mirrors p) frame.args frame'.args
  locals : ArraysAgree (Slot.Mirrors p) frame.locals frame'.locals
  cursors : ArraysAgree (Cursor.Mirrors p) frame.cursors frame'.cursors
  stack : List.Forall₂ (Slot.Mirrors p) frame.stack frame'.stack
  pending : List.Forall₂ (Completion.Mirrors p) frame.pending frame'.pending

/-- Requests for the same but for objects that stand for each other. -/
inductive Request.Mirrors (p : Pairing Given) : Request → Request → Prop where
  | echo (text) : Mirrors p (.echo text) (.echo text)
  | loadField {a b} (field) : p.pairs a b → Mirrors p (.loadField a field) (.loadField b field)
  | storeField {a b v w} (field) : p.pairs a b → v.Mirrors p w →
      Mirrors p (.storeField a field v) (.storeField b field w)
  | loadShared (type field) : Mirrors p (.loadShared type field) (.loadShared type field)
  | storeShared {v w} (type field) : v.Mirrors p w →
      Mirrors p (.storeShared type field v) (.storeShared type field w)
  | loadBound (type field) : Mirrors p (.loadBound type field) (.loadBound type field)
  | storeBound {v w} (type field) : v.Mirrors p w →
      Mirrors p (.storeBound type field v) (.storeBound type field w)
  | call {receiver receiver' args args'} (name) : Option.Rel (Value.Mirrors p) receiver receiver' →
      List.Forall₂ (FrameArg.Mirrors p) args args' →
      Mirrors p (.call name receiver args) (.call name receiver' args')
  | callGlobal {args args'} (name) : ValuesMirror p args args' →
      Mirrors p (.callGlobal name args) (.callGlobal name args')
  | callSite {receiver receiver' args args'} (shape) : receiver.Mirrors p receiver' →
      ValuesMirror p args args' →
      Mirrors p (.callSite shape receiver args) (.callSite shape receiver' args')
  | create {args args'} (type) : List.Forall₂ (FrameArg.Mirrors p) args args' →
      Mirrors p (.create type args) (.create type args')

theorem Request.Mirrors.yields {request request' : Request} (h : request.Mirrors p request') :
    request.yields = request'.yields := by cases h <;> rfl

/-- Instructions that do the same but for objects that stand for each other. -/
inductive Effect.Mirrors (p : Pairing Given) : Effect → Effect → Prop where
  | next {frame frame'} : frame.Mirrors p frame' → Mirrors p (.next frame) (.next frame')
  | jump {frame frame'} (target) : frame.Mirrors p frame' →
      Mirrors p (.jump target frame) (.jump target frame')
  | ask {request request' frame frame'} : request.Mirrors p request' → frame.Mirrors p frame' →
      Mirrors p (.ask request frame) (.ask request' frame')
  | leave (target) : Mirrors p (.leave target) (.leave target)
  | endFinally : Mirrors p .endFinally .endFinally
  | return {v w} : v.Mirrors p w → Mirrors p (.return v) (.return w)

/-- Frames that do the same next but for objects that stand for each other. -/
inductive Step.Mirrors (p : Pairing Given) : Step → Step → Prop where
  | running {frame frame'} : frame.Mirrors p frame' → Mirrors p (.running frame) (.running frame')
  | asking {request request' frame frame'} : request.Mirrors p request' →
      frame.Mirrors p frame' → Mirrors p (.asking request frame) (.asking request' frame')
  | returned {v w} : v.Mirrors p w → Mirrors p (.returned v) (.returned w)
  | failed {e e'} : e.Mirrors p e' → Mirrors p (.failed e) (.failed e')

theorem rel_mono {α β : Type} {R S : α → β → Prop} {a : Option α} {b : Option β}
    (h : Option.Rel R a b) (weaker : ∀ x y, R x y → S x y) : Option.Rel S a b := by
  cases h with
  | some related => exact .some (weaker _ _ related)
  | none => exact .none

theorem rel_map {α β γ δ : Type} {R : α → β → Prop} {S : γ → δ → Prop} {a : Option α} {b : Option β}
    {f : α → γ} {g : β → δ} (h : Option.Rel R a b) (related : ∀ x y, R x y → S (f x) (g y)) :
    Option.Rel S (a.map f) (b.map g) := by
  cases h with
  | some h => exact .some (related _ _ h)
  | none => exact .none

theorem rel_getD {α β : Type} {R : α → β → Prop} {a : Option α} {b : Option β} {x : α} {y : β}
    (h : Option.Rel R a b) (hxy : R x y) : R (a.getD x) (b.getD y) := by
  cases h with
  | some h => exact h
  | none => exact hxy

theorem EntryMirrors.mono {x y : Value × Value} (h : EntryMirrors p x y) (le : p ≤ q) :
    EntryMirrors q x y := ⟨h.1.mono le, h.2.mono le⟩

theorem Cursor.Mirrors.mono (h : cursor.Mirrors p cursor') (le : p ≤ q) :
    cursor.Mirrors q cursor' where
  current := rel_mono h.current fun _ _ entry => entry.mono le
  rest := h.rest.imp fun _ _ entry => entry.mono le

theorem Cursor.Mirrors.advance (h : cursor.Mirrors p cursor') :
    cursor.advance.Mirrors p cursor'.advance := by
  obtain ⟨-, rest⟩ := h
  unfold Cursor.advance
  generalize cursor.rest = xs at rest ⊢
  generalize cursor'.rest = ys at rest ⊢
  cases rest with
  | nil => exact ⟨.none, .nil⟩
  | cons first rest => exact ⟨.some first, rest⟩

theorem Completion.Mirrors.mono {completion completion' : Completion}
    (h : completion.Mirrors p completion') (le : p ≤ q) : completion.Mirrors q completion' := by
  cases h with
  | leave target remaining => exact .leave target remaining
  | rethrow value => exact .rethrow (value.mono le)

namespace Frame.Mirrors

variable {frame frame' : Frame} {slot slot' : Slot} {v w : Value} {cursor cursor' : Cursor}

theorem mono (h : frame.Mirrors p frame') (le : p ≤ q) : frame.Mirrors q frame' where
  pc := h.pc
  receiver := rel_mono h.receiver fun _ _ value => value.mono le
  args := h.args.mono fun _ _ slot => slot.mono le
  locals := h.locals.mono fun _ _ slot => slot.mono le
  cursors := h.cursors.mono fun _ _ cursor => cursor.mono le
  stack := h.stack.imp fun _ _ slot => slot.mono le
  pending := h.pending.imp fun _ _ completion => completion.mono le

theorem enter (body : Body) {receiver receiver' : Option Value} {args args' : List FrameArg}
    (hreceiver : Option.Rel (Value.Mirrors p) receiver receiver')
    (hargs : List.Forall₂ (FrameArg.Mirrors p) args args') :
    (Frame.enter body receiver args).Mirrors p (Frame.enter body receiver' args') where
  pc := rfl
  receiver := hreceiver
  args i := by
    simp only [Frame.enter, List.getElem?_toArray]
    induction hargs generalizing i with
    | nil => exact .none
    | cons first _ ih =>
      cases i with
      | zero => exact .some (.ofArg first)
      | succ i => exact ih i
  locals i := by
    simp only [Frame.enter, Array.getElem?_map]
    cases body.locals[i]? with
    | none => exact .none
    | some => exact .some .unset
  cursors := .empty
  stack := .nil
  pending := .nil

theorem at_pc (h : frame.Mirrors p frame') (n : Nat) :
    Frame.Mirrors p { frame with pc := n } { frame' with pc := n } := { h with pc := rfl }

theorem next (h : frame.Mirrors p frame') :
    Frame.Mirrors p { frame with pc := frame.pc + 1 } { frame' with pc := frame'.pc + 1 } :=
  { h with pc := congrArg (· + 1) h.pc }

theorem push (h : frame.Mirrors p frame') (hslot : slot.Mirrors p slot') :
    (frame.push slot).Mirrors p (frame'.push slot') := { h with stack := .cons hslot h.stack }

theorem pushValue (h : frame.Mirrors p frame') (hv : v.Mirrors p w) :
    (frame.pushValue v).Mirrors p (frame'.pushValue w) := h.push (.value hv)

theorem pop (h : frame.Mirrors p frame') :
    ResultsMirror p (fun x y => x.1.Mirrors p y.1 ∧ x.2.Mirrors p y.2) frame.pop frame'.pop := by
  have stack := h.stack
  unfold Frame.pop
  generalize frame.stack = xs at stack ⊢
  generalize frame'.stack = ys at stack ⊢
  cases stack with
  | nil => exact .failed _
  | cons first rest => exact .ok ⟨first, { h with stack := rest }⟩

theorem popValue (h : frame.Mirrors p frame') :
    ResultsMirror p (fun x y => x.1.Mirrors p y.1 ∧ x.2.Mirrors p y.2) frame.popValue
      frame'.popValue :=
  h.pop.bind fun _ _ popped => .ok ⟨popped.1.toValue, popped.2⟩

theorem popMany (h : frame.Mirrors p frame') (count : Nat) :
    ResultsMirror p (fun x y => List.Forall₂ (Slot.Mirrors p) x.1 y.1 ∧ x.2.Mirrors p y.2)
      (frame.popMany count) (frame'.popMany count) := by
  unfold Frame.popMany
  rw [h.stack.length_eq]
  split
  · exact .failed _
  · exact .ok ⟨List.rel_reverse (List.forall₂_take count h.stack),
      { h with stack := List.forall₂_drop count h.stack }⟩

theorem popValues (h : frame.Mirrors p frame') (count : Nat) :
    ResultsMirror p (fun x y => ValuesMirror p x.1 y.1 ∧ x.2.Mirrors p y.2)
      (frame.popValues count) (frame'.popValues count) :=
  (h.popMany count).bind fun _ _ popped =>
    .ok ⟨List.rel_map (fun _ _ slot => slot.toValue) popped.1, popped.2⟩

theorem popCursor (h : frame.Mirrors p frame') :
    ResultsMirror p (fun x y => x.1 = y.1 ∧ x.2.1.Mirrors p y.2.1 ∧ x.2.2.Mirrors p y.2.2)
      frame.popCursor frame'.popCursor := by
  refine h.pop.bind fun ⟨slot, rest⟩ ⟨slot', rest'⟩ popped => ?_
  obtain ⟨slots, frames⟩ := popped
  dsimp only at slots frames
  cases slots with
  | value | context => exact .failed _
  | enumerator id =>
    have cursor := frames.cursors id
    dsimp only
    generalize rest.cursors[id]? = x at cursor ⊢
    generalize rest'.cursors[id]? = y at cursor ⊢
    cases cursor with
    | some cursors => exact .ok ⟨rfl, cursors, frames⟩
    | none => exact .failed _

theorem arg (h : frame.Mirrors p frame') (n : Nat) : (frame.arg n).Mirrors p (frame'.arg n) :=
  rel_getD (h.args n) .unset

theorem setArg (h : frame.Mirrors p frame') (n : Nat) (hslot : slot.Mirrors p slot') :
    (frame.setArg n slot).Mirrors p (frame'.setArg n slot') where
  __ := h
  args := by
    simp only [Frame.setArg, h.args.size_eq]
    exact (h.args.append (.replicate _ .unset)).set n hslot

theorem getLocal (h : frame.Mirrors p frame') (n : LocalId) :
    ResultsMirror p (Slot.Mirrors p) (frame.getLocal n) (frame'.getLocal n) := by
  have slot := h.locals n
  unfold Frame.getLocal
  generalize frame.locals[n]? = x at slot ⊢
  generalize frame'.locals[n]? = y at slot ⊢
  cases slot with
  | some slots => exact .ok slots
  | none => exact .failed _

theorem setLocal (h : frame.Mirrors p frame') (n : LocalId) (hslot : slot.Mirrors p slot') :
    ResultsMirror p (Frame.Mirrors p) (frame.setLocal n slot) (frame'.setLocal n slot') := by
  unfold Frame.setLocal
  rw [h.locals.size_eq]
  split
  · exact .ok { h with locals := h.locals.set n hslot }
  · exact .failed _

theorem setCursor (h : frame.Mirrors p frame') (id : Nat) (hcursor : cursor.Mirrors p cursor') :
    Frame.Mirrors p { frame with cursors := frame.cursors.setIfInBounds id cursor }
      { frame' with cursors := frame'.cursors.setIfInBounds id cursor' } :=
  { h with cursors := h.cursors.set id hcursor }

theorem pushCursor (h : frame.Mirrors p frame') (hcursor : cursor.Mirrors p cursor') :
    Frame.Mirrors p { frame with cursors := frame.cursors.push cursor }
      { frame' with cursors := frame'.cursors.push cursor' } :=
  { h with cursors := h.cursors.push hcursor }

/-! ### Instructions -/

/-- **An instruction makes** of frames that mirror each other effects that do so. -/
theorem execute (h : frame.Mirrors p frame') (i : Instruction) :
    ResultsMirror p (Effect.Mirrors p) (frame.execute i) (frame'.execute i) := by
  cases i with
  | nop => exact .ok (.next h)
  | loadNull => exact .ok (.next (h.pushValue .null))
  | loadBool => exact .ok (.next (h.pushValue (.bool _)))
  | loadLong => exact .ok (.next (h.pushValue (.long _)))
  | loadDouble => exact .ok (.next (h.pushValue (.double _)))
  | loadString => exact .ok (.next (h.pushValue (.string _)))
  | loadContext => exact .ok (.next (h.push .context))
  | loadArg => exact .ok (.next (h.push (h.arg _)))
  | loadShared type field => exact .ok (.ask (.loadShared type field) h)
  | loadThis =>
    have receiver := h.receiver
    simp only [Frame.execute]
    generalize frame.receiver = x at receiver ⊢
    generalize frame'.receiver = y at receiver ⊢
    cases receiver with
    | some receivers => exact .ok (.next (h.pushValue receivers))
    | none => exact .failed _
  | loadLocal => exact (h.getLocal _).bind fun _ _ slots => .ok (.next (h.push slots))
  | storeLocal =>
    exact h.pop.bind fun _ _ popped => (popped.2.setLocal _ popped.1).bind fun _ _ frames =>
      .ok (.next frames)
  | storeArg => exact h.pop.bind fun _ _ popped => .ok (.next (popped.2.setArg _ popped.1))
  | pop => exact h.pop.bind fun _ _ popped => .ok (.next popped.2)
  | loadBound type field =>
    exact h.pop.bind fun _ _ popped => .ok (.ask (.loadBound type field) popped.2)
  | dup =>
    have stack := h.stack
    simp only [Frame.execute]
    generalize frame.stack = xs at stack ⊢
    generalize frame'.stack = ys at stack ⊢
    cases stack with
    | nil => exact .failed _
    | cons first _ => exact .ok (.next (h.push first))
  | assertNotNull =>
    have stack := h.stack
    simp only [Frame.execute]
    generalize frame.stack = xs at stack ⊢
    generalize frame'.stack = ys at stack ⊢
    cases stack with
    | nil => exact .failed _
    | cons first _ =>
      cases first with
      | context | enumerator => exact .ok (.next h)
      | value value => cases value <;> first | exact .failed _ | exact .ok (.next h)
  | unary =>
    exact h.popValue.bind fun _ _ popped =>
      .ok (.next (popped.2.pushValue (Value.mirrors_unary _ popped.1)))
  | isInstance type =>
    refine h.popValue.bind fun x y popped => ?_
    obtain ⟨_, _⟩ := x
    obtain ⟨_, _⟩ := y
    dsimp only
    rw [popped.1.isInstanceOf type]
    exact .ok (.next (popped.2.pushValue (.bool _)))
  | isExactType type =>
    refine h.popValue.bind fun x y popped => ?_
    obtain ⟨_, _⟩ := x
    obtain ⟨_, _⟩ := y
    dsimp only
    rw [popped.1.isExactly type]
    exact .ok (.next (popped.2.pushValue (.bool _)))
  | storeShared type field =>
    exact h.popValue.bind fun _ _ popped => .ok (.ask (.storeShared type field popped.1) popped.2)
  | binary =>
    exact h.popValue.bind fun _ _ right => right.2.popValue.bind fun _ _ left =>
      .ok (.next (left.2.pushValue (Value.mirrors_binary _ left.1 right.1)))
  | storeBound type field =>
    exact h.popValue.bind fun _ _ value => value.2.pop.bind fun _ _ context =>
      .ok (.ask (.storeBound type field value.1) context.2)
  | echo =>
    refine h.popValue.bind fun _ _ value => value.2.pop.bind fun _ _ context => ?_
    rw [value.1.text]
    exact .ok (.ask (.echo _) context.2)
  | newArray size keyed =>
    cases keyed with
    | true =>
      exact (h.popValues _).bind fun _ _ popped =>
        .ok (.next (popped.2.pushValue (Value.mirrors_ofEntries (Value.pairs_of_mirrors popped.1))))
    | false =>
      exact (h.popValues _).bind fun _ _ popped =>
        .ok (.next (popped.2.pushValue (Value.mirrors_ofEntries
          (List.rel_map (fun _ _ value => ⟨.null, value⟩) popped.1))))
  | newObject type =>
    exact (h.popMany _).bind fun _ _ popped =>
      .ok (.ask (.create type (List.rel_map (fun _ _ slot => slot.toArg) popped.1)) popped.2)
  | call name argc onObject =>
    cases onObject with
    | false =>
      exact (h.popMany _).bind fun _ _ popped =>
        .ok (.ask (.call name .none (List.rel_map (fun _ _ slot => slot.toArg) popped.1)) popped.2)
    | true =>
      exact (h.popMany _).bind fun _ _ args => args.2.popValue.bind fun _ _ receiver =>
        .ok (.ask (.call name (.some receiver.1)
          (List.rel_map (fun _ _ slot => slot.toArg) args.1)) receiver.2)
  | callGlobal name =>
    exact (h.popValues _).bind fun _ _ args => args.2.pop.bind fun _ _ context =>
      .ok (.ask (.callGlobal name args.1) context.2)
  | callSite shape =>
    exact (h.popValues _).bind fun _ _ args => args.2.pop.bind fun _ _ context =>
      context.2.popValue.bind fun _ _ receiver =>
        .ok (.ask (.callSite shape receiver.1 args.1) receiver.2)
  | loadField field =>
    refine h.popValue.bind fun x y popped => ?_
    obtain ⟨receiver, _⟩ := x
    obtain ⟨receiver', _⟩ := y
    obtain ⟨receivers, frames⟩ := popped
    dsimp only at receivers frames ⊢
    have objects := receivers.object?
    rw [receivers.kind]
    generalize receiver.object? = x at objects ⊢
    generalize receiver'.object? = y at objects ⊢
    cases objects with
    | some pair => exact .ok (.ask (.loadField field pair) frames)
    | none => exact .failed _
  | storeField field =>
    refine h.popValue.bind fun u v value => ?_
    obtain ⟨_, _⟩ := u
    obtain ⟨_, _⟩ := v
    refine value.2.popValue.bind fun x y popped => ?_
    obtain ⟨receiver, _⟩ := x
    obtain ⟨receiver', _⟩ := y
    obtain ⟨receivers, frames⟩ := popped
    dsimp only at receivers frames ⊢
    have objects := receivers.object?
    rw [receivers.kind]
    generalize receiver.object? = x at objects ⊢
    generalize receiver'.object? = y at objects ⊢
    cases objects with
    | some pair => exact .ok (.ask (.storeField field pair value.1) frames)
    | none => exact .failed _
  | getEnumerator =>
    refine h.popValue.bind fun x y popped => ?_
    obtain ⟨value, _⟩ := x
    obtain ⟨value', _⟩ := y
    obtain ⟨values, frames⟩ := popped
    dsimp only at values frames ⊢
    have entries := values.entries?
    rw [values.kind, frames.cursors.size_eq]
    generalize value.entries? = x at entries ⊢
    generalize value'.entries? = y at entries ⊢
    cases entries with
    | some entries =>
      exact .ok (.next ((frames.pushCursor ⟨.none, entries⟩).push (.enumerator _)))
    | none => exact .failed _
  | advance =>
    refine h.popCursor.bind fun x y popped => ?_
    obtain ⟨id, cursor, _⟩ := x
    obtain ⟨id', cursor', _⟩ := y
    obtain ⟨ids, cursors, frames⟩ := popped
    dsimp only at ids cursors frames ⊢
    have current := cursors.advance.current
    have moved : cursor.advance.current.isSome = cursor'.advance.current.isSome := by
      generalize cursor.advance.current = x at current ⊢
      generalize cursor'.advance.current = y at current ⊢
      cases current <;> rfl
    rw [ids, moved]
    exact .ok (.next ((frames.setCursor id' cursors.advance).pushValue (.bool _)))
  | enumeratorKey | enumeratorValue =>
    refine h.popCursor.bind fun x y popped => ?_
    obtain ⟨_, cursor, _⟩ := x
    obtain ⟨_, cursor', _⟩ := y
    obtain ⟨-, cursors, frames⟩ := popped
    have current := cursors.current
    dsimp only at cursors frames current ⊢
    generalize cursor.current = x at current ⊢
    generalize cursor'.current = y at current ⊢
    cases current with
    | some entry => exact .ok (.next (frames.pushValue (by first | exact entry.1 | exact entry.2)))
    | none => exact .failed _
  | jump target => exact .ok (.jump target h)
  | jumpIfTrue target =>
    refine h.popValue.bind fun x y popped => ?_
    obtain ⟨_, _⟩ := x
    obtain ⟨_, _⟩ := y
    dsimp only
    rw [popped.1.truthy]
    split
    · exact .ok (.jump target popped.2)
    · exact .ok (.next popped.2)
  | jumpIfFalse target =>
    refine h.popValue.bind fun x y popped => ?_
    obtain ⟨_, _⟩ := x
    obtain ⟨_, _⟩ := y
    dsimp only
    rw [popped.1.truthy]
    split
    · exact .ok (.next popped.2)
    · exact .ok (.jump target popped.2)
  | leave target => exact .ok (.leave target)
  | endFinally => exact .ok .endFinally
  | throw => exact h.popValue.bind fun _ _ popped => .error (.thrown popped.1)
  | «return» => exact h.popValue.bind fun _ _ popped => .ok (.return popped.1)

end Frame.Mirrors

/-! ## Steps -/

namespace Body

variable (body : Body) {frame frame' : Frame}

theorem takes_of_mirrors (region : Region) {v w : Value} (h : v.Mirrors p w) :
    region.takes v = region.takes w := by
  simp only [Region.takes, h.isInstanceOf]

theorem complete_of_mirrors (h : frame.Mirrors p frame') (target : Nat) (handlers : List Nat) :
    (complete frame target handlers).Mirrors p (complete frame' target handlers) := by
  cases handlers with
  | nil => exact h.at_pc target
  | cons handler rest =>
    exact { h.at_pc handler with pending := .cons (.leave target rest) h.pending }

/-- Errors that mirror each other are handled alike. -/
theorem raise_of_mirrors (h : frame.Mirrors p frame') {e e' : DispatchError}
    (errors : e.Mirrors p e') : (body.raise frame e).Mirrors p (body.raise frame' e') := by
  cases errors with
  | alike ordinary alike =>
    have failed {e : DispatchError} (ordinary : ∀ v, e ≠ .thrown v) (frame : Frame) :
        body.raise frame e = .failed e := by
      cases e with
      | thrown v => exact (ordinary v rfl).elim
      | _ => rfl
    have ordinary' : ∀ v, e' ≠ .thrown v := by
      cases alike with
      | refl => exact ordinary
      | undefinedMethod => exact nofun
    rw [failed ordinary, failed ordinary']
    exact .failed (.alike ordinary alike)
  | @thrown v w values =>
    have takes (region : Region) : (region.protects frame.pc && region.takes v) =
        (region.protects frame'.pc && region.takes w) := by
      rw [h.pc, takes_of_mirrors region values]
    simp only [raise, takes]
    cases body.regions.find? fun region => region.protects frame'.pc && region.takes w with
    | none => exact .failed (.thrown values)
    | some region =>
      refine .running ?_
      unfold enterHandler
      split
      · exact { h.at_pc region.handlerStart with stack := .cons (.value values) .nil }
      · exact { h.at_pc region.handlerStart with
          stack := .nil
          pending := .cons (.rethrow values) h.pending }

/-- **Frames that mirror each other** do next what mirrors each other. -/
theorem step_of_mirrors (h : frame.Mirrors p frame') :
    (body.step frame).Mirrors p (body.step frame') := by
  unfold step
  rw [← h.pc]
  cases body.code[frame.pc]? with
  | none => exact body.raise_of_mirrors h (.failed _)
  | some i =>
    have effects := h.execute i
    dsimp only
    generalize frame.execute i = x at effects ⊢
    generalize frame'.execute i = y at effects ⊢
    cases effects with
    | error errors => exact body.raise_of_mirrors h errors
    | ok effects =>
      cases effects with
      | next frames => exact .running frames.next
      | jump target frames => exact .running (frames.at_pc target)
      | ask requests frames => exact .asking requests frames
      | leave target =>
        have cleared : Frame.Mirrors p { frame with stack := [] }
            { frame' with pc := frame.pc, stack := [] } := { h with pc := rfl, stack := .nil }
        exact .running (complete_of_mirrors cleared _ _)
      | «return» values => exact .returned values
      | endFinally =>
        have pending := h.pending
        dsimp only
        generalize frame.pending = xs at pending ⊢
        generalize frame'.pending = ys at pending ⊢
        cases pending with
        | nil => exact .failed (.failed _)
        | @cons _ _ rest rest' first later =>
          have left : Frame.Mirrors p { frame with pending := rest }
              { frame' with pending := rest' } := { h with pending := later }
          rw [← h.pc] at left
          cases first with
          | leave target remaining => exact .running (complete_of_mirrors left target remaining)
          | rethrow values => exact body.raise_of_mirrors left (.thrown values)

/-- They go on alike with answers that mirror each other. -/
theorem resume_of_mirrors {request request' : Request} (requests : request.Mirrors p request')
    (h : frame.Mirrors q frame') {answer answer' : Except DispatchError Value}
    (answers : ResultsMirror q (Value.Mirrors q) answer answer') :
    (body.resume request frame answer).Mirrors q (body.resume request' frame' answer') := by
  cases answers with
  | error errors => exact body.raise_of_mirrors h errors
  | ok values =>
    simp only [resume, requests.yields]
    split
    · exact .running (h.next.pushValue values)
    · exact .running h.next

end Body

end StackScript
