import StackScript.Machine.Run
import StackScript.Proofs.Dispatch.Beside
import StackScript.Proofs.Machine.Mirrors

/-!
# Values whose types are known

An object carries its type, and a type is told from others by its number. In a program types are
built once, and their numbers are not given out again: there is one type to each number. A value is
known if all objects in it have the types of their numbers: it mirrors itself where such objects
stand for themselves.

Call sites tell types by their numbers too. So they answer calls that mirror each other alike,
whatever they have served before, if the objects that stand for each other are of known types.

## Main definitions

* `Value.Known`: the objects in a value have the types of their numbers
* `Pairing.known`: objects of known types stand for themselves
* `Invocation.Mirrors`: calls of one method, with what mirrors each other

## Main results

* `Value.mirrors_known`: a known value mirrors itself, and nothing else
* `CallSite.prepare_of_mirrors`: call sites answer alike, whatever they have served before
-/

namespace StackScript

variable {types : TypeId → RuntimeType}

/-! ## Values -/

/-- The objects in a value have the types of their numbers. -/
inductive Value.Known (types : TypeId → RuntimeType) : Value → Prop where
  | null : Known types .null
  | bool (b) : Known types (.bool b)
  | long (n) : Known types (.long n)
  | double (d) : Known types (.double d)
  | string (s) : Known types (.string s)
  | array {entries : List (Value × Value)} : (∀ entry ∈ entries, Known types entry.1) →
      (∀ entry ∈ entries, Known types entry.2) → Known types (.array entries)
  | object {ref : ObjectRef} : types ref.type.id = ref.type → Known types (.object ref)

namespace Value

/-- The objects in a list of entries have the types of their numbers. -/
def EntriesKnown (types : TypeId → RuntimeType) (entries : List (Value × Value)) : Prop :=
  ∀ entry ∈ entries, entry.1.Known types ∧ entry.2.Known types

theorem known_array {entries : List (Value × Value)} :
    (array entries).Known types ↔ EntriesKnown types entries := by
  refine ⟨fun h => ?_, fun h => .array (fun entry he => (h entry he).1) fun entry he =>
    (h entry he).2⟩
  cases h with
  | array hkeys hvalues => exact fun entry he => ⟨hkeys entry he, hvalues entry he⟩

theorem known_object {ref : ObjectRef} :
    (object ref).Known types ↔ types ref.type.id = ref.type := by
  refine ⟨fun h => ?_, .object⟩
  cases h with
  | object href => exact href

theorem entriesKnown_nil : EntriesKnown types [] := nofun

theorem entriesKnown_cons {key value : Value} {rest : List (Value × Value)} :
    EntriesKnown types ((key, value) :: rest) ↔
      key.Known types ∧ value.Known types ∧ EntriesKnown types rest := by
  simp [EntriesKnown, and_assoc]

end Value

/-- Each object stands for itself, if it has the type of its number. -/
def Pairing.known (types : TypeId → RuntimeType) : Pairing fun type => types type.id = type where
  pairs a b := a = b ∧ types a.type.id = a.type
  typed h := congrArg ObjectRef.type h.1
  given h := h.2
  unique h h' := by rw [h.1, h'.1]

/-- A known value mirrors itself, and nothing else does. -/
theorem Value.mirrors_known {v w : Value} : v.Mirrors (.known types) w ↔ v = w ∧ v.Known types := by
  constructor
  · intro h
    induction h with
    | null => exact ⟨rfl, .null⟩
    | bool b => exact ⟨rfl, .bool b⟩
    | long n => exact ⟨rfl, .long n⟩
    | double d => exact ⟨rfl, .double d⟩
    | string s => exact ⟨rfl, .string s⟩
    | object pair => exact ⟨congrArg _ pair.1, .object pair.2⟩
    | @array xs ys length keys values sameKeys sameValues =>
      suffices xs = ys ∧ EntriesKnown types xs from
        ⟨congrArg array this.1, known_array.mpr this.2⟩
      have entries := forall₂_of_array (P := fun v w => v = w ∧ v.Known types) length sameKeys
        sameValues
      clear length keys values sameKeys sameValues
      induction entries with
      | nil => exact ⟨rfl, entriesKnown_nil⟩
      | cons first _ ih =>
        obtain ⟨⟨same, key⟩, same', value⟩ := first
        exact ⟨congrArg₂ _ (Prod.ext same same') ih.1,
          entriesKnown_cons.mpr ⟨key, value, ih.2⟩⟩
  · rintro ⟨rfl, h⟩
    induction h with
    | null => exact .null
    | bool b => exact .bool b
    | long n => exact .long n
    | double d => exact .double d
    | string s => exact .string s
    | object known => exact .object ⟨rfl, known⟩
    | array _ _ keys values =>
      exact mirrors_array.mpr (List.forall₂_same.mpr fun entry mem =>
        ⟨keys entry mem, values entry mem⟩)

theorem Value.Known.mirrors {v : Value} (h : v.Known types) : v.Mirrors (.known types) v :=
  mirrors_known.mpr ⟨rfl, h⟩

/-- Known values mirror themselves. -/
theorem valuesMirror_known {args : List Value} (h : ∀ v ∈ args, v.Known types) :
    ValuesMirror (.known types) args args :=
  List.forall₂_same.mpr fun v mem => (h v mem).mirrors

/-- A place holds a known value, if any. -/
def Slot.Known (types : TypeId → RuntimeType) : Slot → Prop
  | .value v => v.Known types
  | _ => True

theorem Slot.Known.toValue {slot : Slot} (h : slot.Known types) : slot.toValue.Known types := by
  cases slot with
  | value v => exact h
  | context => exact .string _
  | enumerator => exact .null

/-! ## Call sites -/

/-- Calls of one method, with what mirrors each other. -/
structure Invocation.Mirrors {Given : RuntimeType → Prop} (p : Pairing Given)
    (invocation invocation' : Invocation) : Prop where
  method : invocation.method = invocation'.method
  own : ∃ level ∈ invocation.receiver.type.levels, invocation.method ∈ level.methods
  receiver : p.pairs invocation.receiver invocation'.receiver
  args : ValuesMirror p invocation.args invocation'.args

section Dispatch

variable {Given : RuntimeType → Prop} {p : Pairing Given} {shape : SiteShape}
  {receiver receiver' : Value} {args args' : List Value}

theorem ResultsMirror.of_alike {α β : Type} {R : α → β → Prop} {x y : Except DispatchError α}
    {z w : Except DispatchError β} (left : OutcomesAlike x y) (h : ResultsMirror p R y z)
    (right : OutcomesAlike z w) : ResultsMirror p R x w := by
  cases h with
  | ok results =>
    cases left
    cases right
    exact .ok results
  | error errors =>
    cases left with | error before =>
    cases right with | error behind =>
    cases errors with
    | thrown values =>
      cases before
      cases behind
      exact .error (.thrown values)
    | @alike e e' ordinary alike =>
      refine .error (.alike ?_ (before.trans (alike.trans behind)))
      rintro v rfl
      cases before
      exact ordinary v rfl

theorem SiteShape.receiverOf_of_mirrors (shape : SiteShape) (h : receiver.Mirrors p receiver') :
    ResultsMirror p p.pairs (shape.receiverOf receiver) (shape.receiverOf receiver') := by
  cases h with
  | object pair => exact .ok pair
  | _ => exact .error (.same nofun)

theorem SiteShape.selectName_of_mirrors (shape : SiteShape) (h : ValuesMirror p args args') :
    ResultsMirror p (fun x y => x.1 = y.1 ∧ ValuesMirror p x.2 y.2) (shape.selectName args)
      (shape.selectName args') := by
  unfold selectName
  split
  · exact .ok ⟨rfl, h⟩
  · exact .ok ⟨rfl, h⟩
  · cases h with
    | nil => exact .error (.same nofun)
    | cons first rest =>
      cases first with
      | string s => exact .ok ⟨rfl, rest⟩
      | _ => exact .error (.same nofun)

theorem Binding.convertFrom_of_mirrors (method : String) (h : ValuesMirror p args args')
    (position : Nat) (plan : List ArgSource) :
    ResultsMirror p (ValuesMirror p) (convertFrom method args position plan)
      (convertFrom method args' position plan) := by
  induction plan generalizing position with
  | nil => exact .ok .nil
  | cons source rest ih =>
    cases source with
    | context => exact ih _
    | supplied index representation =>
      have value : Option.Rel (Value.Mirrors p) args[index]? args'[index]? := by
        clear ih
        induction h generalizing index with
        | nil => exact .none
        | cons first _ ih =>
          cases index with
          | zero => exact .some first
          | succ index => exact ih index
      unfold convertFrom
      generalize args[index]? = x at value ⊢
      generalize args'[index]? = y at value ⊢
      cases value with
      | none => exact .failed _
      | @some v w values =>
        have converted := values.convert? representation
        dsimp only
        rw [values.kind]
        generalize v.convert? representation = x at converted ⊢
        generalize w.convert? representation = y at converted ⊢
        cases converted with
        | none => exact .error (.same fun _ thrown => by cases thrown)
        | some converted => exact (ih _).bind fun _ _ rest => .ok (.cons converted rest)

theorem mirrors_layArgs (formals : List Formal) (h : ValuesMirror p args args') :
    List.Forall₂ (FrameArg.Mirrors p) (layArgs formals args) (layArgs formals args') := by
  induction formals generalizing args args' with
  | nil => exact .nil
  | cons formal rest ih =>
    unfold layArgs
    split
    · exact .cons .context (ih h)
    · cases h with
      | nil => exact .cons (.value .null) (ih .nil)
      | cons first later => exact .cons (.value first) (ih later)

/-- What a look-up finds is declared by the type or one of its ancestors. -/
theorem own_of_resolve {type : RuntimeType} {name : String} {argc : Nat} {binding : Binding}
    (h : resolve type name argc = .ok binding) :
    ∃ level ∈ type.levels, binding.method ∈ level.methods := by
  unfold resolve at h
  split at h
  · cases h
  · next method found =>
    obtain ⟨level, mem, own⟩ := List.exists_of_findSome?_eq_some found
    split at h <;> cases h
    exact ⟨level, mem, List.mem_of_find?_eq_some own⟩

/-- Sites that were not used yet answer alike. -/
theorem CallSite.prepare_new_of_mirrors (shape : SiteShape) (receivers : receiver.Mirrors p receiver')
    (arguments : ValuesMirror p args args') :
    ResultsMirror p (Invocation.Mirrors p) ((new shape 0).prepare receiver args).1
      ((new shape 0).prepare receiver' args').1 := by
  have objects := shape.receiverOf_of_mirrors receivers
  have selected := shape.selectName_of_mirrors arguments
  simp only [prepare, show (new shape 0).shape = shape from rfl]
  generalize shape.receiverOf receiver = x at objects ⊢
  generalize shape.receiverOf receiver' = y at objects ⊢
  cases objects with
  | error errors => exact .error errors
  | @ok object object' pair =>
    generalize shape.selectName args = x at selected ⊢
    generalize shape.selectName args' = y at selected ⊢
    cases selected with
    | error errors => exact .error errors
    | @ok x y selected =>
      obtain ⟨name, supplied⟩ := x
      obtain ⟨name', supplied'⟩ := y
      obtain ⟨rfl, values⟩ := selected
      dsimp only at values ⊢
      rw [bind_new, bind_new, ← p.typed pair, values.length_eq]
      cases found : resolve object.type name supplied'.length with
      | error error =>
        refine .error (.same ?_)
        rintro v rfl
        unfold resolve at found
        split at found
        · cases found
        · split at found <;> cases found
      | ok binding =>
        exact (Binding.convertFrom_of_mirrors _ values 1 binding.plan).bind fun _ _ converted =>
          .ok ⟨rfl, own_of_resolve found, pair, converted⟩

/-- The object that a call is made on is known. -/
theorem Value.Known.typed (h : receiver.Known types) (shape : SiteShape) (args : List Value) :
    SiteCall.Typed types shape ⟨receiver, args⟩ := by
  intro l hl
  cases receiver with
  | object ref =>
    simp only [SiteShape.lookup?, SiteShape.receiverOf, Option.mem_def] at hl
    split at hl
    case h_1 hobject _ =>
      cases hobject
      cases hl
      exact Value.known_object.mp h
    case h_2 => cases hl
  | _ => cases hl

/-- What stands for each other are objects whose types are known by their numbers. -/
theorem Value.Mirrors.typed {types : TypeId → RuntimeType} (h : receiver.Mirrors p receiver')
    (known : ∀ type, Given type → types type.id = type) (shape : SiteShape) (args : List Value) :
    SiteCall.Typed types shape ⟨receiver, args⟩ ∧ SiteCall.Typed types shape ⟨receiver', args⟩ := by
  cases h with
  | object pair =>
    have own := known _ (p.given pair)
    exact ⟨(Value.Known.object own).typed shape args,
      (Value.Known.object (p.typed pair ▸ own)).typed shape args⟩
  | _ => exact ⟨nofun, nofun⟩

/-- **Call sites answer alike**, whatever they have served before. -/
theorem CallSite.prepare_of_mirrors {types : TypeId → RuntimeType} {site site' : CallSite}
    (typed : ∀ type, Given type → types type.id = type) (reached : site.Reached types)
    (reached' : site'.Reached types) (same : site.shape = site'.shape)
    (receivers : receiver.Mirrors p receiver') (arguments : ValuesMirror p args args') :
    ResultsMirror p (Invocation.Mirrors p) (site.prepare receiver args).1
      (site'.prepare receiver' args').1 := by
  have calls := receivers.typed typed site.shape
  refine .of_alike (reached.prepare_alike (.new site.shape 0) rfl (calls args).1)
    (prepare_new_of_mirrors site.shape receivers arguments) ?_
  have alike : OutcomesAlike ((CallSite.new site.shape 0).prepare receiver' args').1
      (site'.prepare receiver' args').1 :=
    CallSite.Reached.prepare_alike (.new site.shape 0) reached' same (calls args').2
  exact alike

/-- Arrays are unpacked alike. -/
theorem CallSite.spread_of_mirrors (arguments : ValuesMirror p args args') (shapes : List ArgShape) :
    ResultsMirror p (ValuesMirror p) (spread args shapes) (spread args' shapes) := by
  induction arguments generalizing shapes with
  | nil => exact .ok .nil
  | cons first rest ih =>
    cases shapes with
    | nil => exact .ok .nil
    | cons shape shapes =>
      cases shape with
      | value => exact (ih shapes).bind fun _ _ spread => .ok (.cons first spread)
      | unpacked =>
        have entries := first.entries?
        simp only [spread]
        rw [first.kind]
        revert entries
        generalize Value.entries? _ = x
        generalize Value.entries? _ = y
        intro entries
        cases entries with
        | none => exact .failed _
        | some entries =>
          exact (ih shapes).bind fun _ _ spread => .ok
            (List.rel_append (List.rel_map (fun _ _ entry => entry.2) entries) spread)

theorem CallSite.flatten_of_mirrors {site site' : CallSite} (same : site.shape = site'.shape)
    (arguments : ValuesMirror p args args') :
    ResultsMirror p (ValuesMirror p) (site.flatten args) (site'.flatten args') := by
  unfold flatten
  rw [same]
  split
  · exact spread_of_mirrors arguments _
  · exact .ok arguments

end Dispatch

end StackScript
