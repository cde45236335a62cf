import Mathlib.Tactic.Common
import StackScript.Lowering.Item

/-!
# What is known in front of an instruction

In front of every instruction of a body it is known how many values are on the stack, and which of
them are the context; and which static fields have been stored to on every way there. What an
instruction refers to, a body or a field of a type, is what the declarations say, and the values that
it takes are those that they ask for.

## Main definitions

* `Shape`, `Shape.Fits`: what is known, and knowing less
* `Instruction.after`: what is known behind an instruction
* `Region.known`: what is known at the start of a handler
* `framed`: the context and one value per parameter
* `Admits`: the instructions that a body may have, with what is known in front of them
-/

namespace StackScript

/-! ## Shapes -/

/-- What is known of a value on the stack. -/
inductive Operand where
  | context
  | any
  deriving DecidableEq

/-- What is known in front of an instruction. -/
structure Shape where
  /-- The values on the stack, the last one first. -/
  cells : List Operand
  /-- The stores to static fields that have been made on every way. -/
  stores : List Instruction

namespace Shape

/-- The stack is empty, and nothing else is known. -/
def blank : Shape := ⟨[], []⟩

/-- One value more. -/
def push (shape : Shape) (cell : Operand) : Shape := { shape with cells := cell :: shape.cells }

/-- Less is known in the other shape. -/
structure Fits (a b : Shape) : Prop where
  length : a.cells.length = b.cells.length
  context : ∀ {n : Nat}, b.cells[n]? = some Operand.context → a.cells[n]? = some Operand.context
  stores : ∀ i ∈ b.stores, i ∈ a.stores

variable {a b c : Shape} {cell : Operand}

@[simp] theorem cells_push : (a.push cell).cells = cell :: a.cells := rfl

@[simp] theorem stores_push : (a.push cell).stores = a.stores := rfl

/-- A value more makes the stack deeper by one. -/
theorem length_push (a : Shape) (cell : Operand) :
    ((a.push cell).cells.length : Int) - a.cells.length = 1 := by
  rw [cells_push, List.length_cons]
  omega

@[refl] theorem Fits.refl (a : Shape) : a.Fits a := ⟨rfl, id, fun _ => id⟩

theorem Fits.of_eq (h : a = b) : a.Fits b := h ▸ .refl a

theorem Fits.trans (h : a.Fits b) (h' : b.Fits c) : a.Fits c where
  length := h.length.trans h'.length
  context known := h.context (h'.context known)
  stores i mem := h.stores i (h'.stores i mem)

/-- A value that is pushed may be anything. -/
theorem fits_push_any (a : Shape) (cell : Operand) : (a.push cell).Fits (a.push .any) where
  length := rfl
  context {n} known := by
    cases n with
    | zero => cases known
    | succ n => exact known
  stores _ := id

end Shape

/-! ## Instructions -/

namespace Instruction

/-- The instruction stores to a static field. -/
def storesStatic : Instruction → Bool
  | .storeShared .. | .storeBound .. => true
  | _ => false

/-- What is known behind an instruction. -/
def after (i : Instruction) (shape : Shape) : Shape where
  cells := match i with
    | .loadContext => .context :: shape.cells
    | i => List.replicate i.pushes .any ++ shape.cells.drop i.pops
  stores := if i.storesStatic then i :: shape.stores else shape.stores

theorem length_after {i : Instruction} {shape : Shape} (h : i.pops ≤ shape.cells.length) :
    (i.after shape).cells.length = shape.cells.length - i.pops + i.pushes := by
  unfold Instruction.after
  split
  · rfl
  · simp only [List.length_append, List.length_replicate, List.length_drop]
    omega

/-- The call site that the instruction calls through. -/
def site? : Instruction → Option SiteShape
  | .callSite shape => some shape
  | _ => none

/-- The instruction refers to a body of the program, or to a static field. -/
def refers : Instruction → Bool
  | .call .. | .newObject .. => true
  | .loadShared .. | .storeShared .. | .loadBound .. | .storeBound .. => true
  | _ => false

/-- The instruction goes on elsewhere with nothing on the stack. -/
def clears : Instruction → Bool
  | .leave _ | .endFinally => true
  | _ => false

/-- The instruction refers to nothing outside its body, and goes on behind itself or not at all. -/
def isInward : Instruction → Bool
  | .callSite _ => false
  | .jump _ | .jumpIfTrue _ | .jumpIfFalse _ => false
  | i => !i.refers && !i.clears

end Instruction

/-- What is known at the start of a handler. -/
def Region.known (region : Region) : Shape :=
  match region.kind with
  | .catch _ => Shape.blank.push .any
  | .finally => .blank

/-- What is known of the value of a parameter. -/
def Parameter.cell (param : Parameter) : Operand := if param.isContext then .context else .any

/-- The context and one value per parameter, above other values. -/
def framed (params : List Parameter) (below : List Operand) : List Operand :=
  (params.map Parameter.cell).reverse ++ .context :: below

/-- An access to a static field: the field belongs to a context or not, and is loaded or stored. -/
def staticAccess (bound store : Bool) (owner : QualifiedName) (field : String) : Instruction :=
  match bound, store with
  | false, false => .loadShared owner field
  | false, true => .storeShared owner field
  | true, false => .loadBound owner field
  | true, true => .storeBound owner field

/-- The field of a type belongs to a context. -/
def TypeEntry.bindsField (entry : TypeEntry) (field : String) : Bool :=
  match entry.field? field with
  | some declared => declared.requiresContext
  | none => false

/-- **The instructions that a body may have**, with the values on the stack in front of them: what
they refer to is what the declarations say. -/
inductive Admits (table : Table) (item : WorkItem) : List Operand → Instruction → Prop where
  | inward {cells i} : i.isInward = true → Admits table item cells i
  | function {name entry below} : table.function? name = some entry →
      Admits table item (framed entry.routine.params below)
        (.call (.function entry.name) entry.routine.params.length false)
  | method {type name entry method below} :
      table.resolveMethod? type name = some (entry, method) → method.isStatic = false →
      Admits table item (framed method.params (.any :: below))
        (.call (.method entry.name method.name) method.params.length true)
  /-- The constructor of the base. -/
  | base {own name entry below} : item = .constructor own → own.base = some name →
      table.type? name.text = some entry →
      Admits table item (framed (initializerParams table entry) (.any :: below))
        (.call (.constructor entry.name) (initializerParams table entry).length true)
  /-- The constructor of a base that is declared only when the program runs. -/
  | conditionalBase {own name below} : item = .constructor own → own.base = some name →
      table.type? name.text = none → table.declaresType name.text = true →
      Admits table item (framed (initializerParams table own) (.any :: below))
        (.call (.constructor name) (initializerParams table own).length true)
  | initializer {own declaring init below} : item = .constructor own →
      table.resolveInitializer? own = some (declaring, init) →
      Admits table item (framed init.params (.any :: below))
        (.call ((BodyName.method declaring.name init.name).atSite declaring.placement.site?)
          init.params.length true)
  | create {name entry below} : table.type? name = some entry →
      Admits table item (framed (initializerParams table entry) below)
        (.newObject entry.name (initializerParams table entry).length)
  /-- A type that is declared only when the program runs. -/
  | conditionalCreate {cells type argc} : table.type? type.text = none →
      Admits table item cells (.newObject type argc)
  | static {type field entry cells store} : table.resolveStatic? type field = some entry →
      Admits table item cells (staticAccess (entry.bindsField field) store entry.name field)
  | sharedStore {own field cells} : item = .sharedInitializer own → field ∈ own.sharedFields →
      Admits table item cells (.storeShared own.name field.name)
  | boundStore {own field cells} : item = .boundInitializer own → field ∈ own.boundFields →
      Admits table item cells (.storeBound own.name field.name)

/-- An instruction that a body may have is no call site. -/
theorem Admits.site?_eq_none {table : Table} {item : WorkItem} {cells : List Operand}
    {i : Instruction} (h : Admits table item cells i) : i.site? = none := by
  cases h with
  | inward h => cases i <;> first | rfl | cases h
  | @static _ _ entry _ store =>
    unfold staticAccess
    split <;> rfl
  | function | method | base | conditionalBase | initializer | create | conditionalCreate
  | sharedStore | boundStore => rfl

end StackScript
