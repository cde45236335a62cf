import StackScript.Proofs.Evaluation.Constructors
import StackScript.Proofs.Writing.Written

/-!
# How the code of members is written

The members that types have without a declaration are written by the same kinds of steps as
expressions and statements. A constructor calls the one of its base, and the user's initializer;
an initializer of static fields stores to each of them.

## Main results

* `written_constructorCode`, `written_sharedInitializerCode`, `written_boundInitializerCode`,
  `written_invokeCode`: the code of each member
-/

namespace StackScript

open Emit

section Members

variable {env : BodyEnv} {item : WorkItem} {a : Shape} {entry : TypeEntry} {base : QualifiedName}
    {fields : List Field}

/-! ## Parameters that are handed on -/

theorem written_passThroughFrom (index : Nat) (params : List Parameter) :
    Written env item a (a.pushParams params) (passThroughFrom env index params) := by
  induction params generalizing index a with
  | nil => exact .pure _
  | cons param rest ih =>
    rw [Shape.pushParams_cons]
    unfold passThroughFrom
    cases isContext : param.isContext with
    | true =>
      simp only [Parameter.cell, isContext, if_true]
      exact written_loadContext.bind fun _ => ih _
    | false =>
      simp only [Parameter.cell, isContext, Bool.false_eq_true, if_false]
      exact (written_argumentSlot _).bind fun _ => (written_pushed rfl rfl (.refl _)).bind fun _ =>
        ih _

theorem written_passThrough : Written env item a (a.pushParams env.params) (passThrough env) :=
  written_passThroughFrom 0 env.params

theorem written_forwardParameters (own : List OwnParameter) (params : List Parameter) :
    Written env item a (a.pushParams params) (forwardParameters env base own params) := by
  induction params generalizing own a with
  | nil =>
    cases own <;> exact .pure _
  | cons param rest ih =>
    rw [Shape.pushParams_cons]
    unfold forwardParameters
    split
    case h_1 isContext =>
      rw [Parameter.cell_of_context isContext]
      exact written_loadContext.bind fun _ => ih _
    case h_2 isValue =>
      rw [Parameter.cell_of_value isValue]
      split
      · exact (written_argumentSlot _).bind fun _ =>
          (written_pushed rfl rfl (.refl _)).bind fun _ => ih _
      · exact .throw _
    case h_3 isValue _ =>
      rw [Parameter.cell_of_value isValue]
      exact (written_loadLiteral _).bind fun _ => ih _
    case h_4 => exact .throw _

/-! ## Constructors -/

/-- A call on the receiver whose result is dropped. -/
theorem written_memberCall {body : BodyName} {params : List Parameter}
    (admits : ∀ below, Admits env.table item (framed params (.any :: below))
      (.call body params.length true)) {arguments : Emit Unit}
    (pushed : ∀ a, Written env item a (a.pushParams params) arguments) :
    Written env item a a (do
      loadThis env
      loadContext env
      arguments
      emit (.call body params.length true)
      emit .pop) := by
  refine written_loadThis.bind fun _ => written_loadContext.bind fun _ => (pushed _).bind fun _ => ?_
  refine Written.bind (b := a.push .any) ?_ fun _ => written_popped rfl rfl (.refl _)
  exact written_framed (n := 1) (admits a.cells) rfl (by simp [Instruction.pops]) (by simp)
    fun _ => rfl

theorem written_forwardToBase (extends_ : entry.base = some base)
    (params : env.params = initializerParams env.table entry) :
    Written env (.constructor entry) a a (forwardToBase env base) := by
  unfold forwardToBase
  split
  case h_1 declaring declared =>
    exact written_memberCall (fun _ => .base rfl extends_ declared)
      fun _ => written_forwardParameters _ _
  case h_2 undeclared =>
    split
    case isTrue declared =>
      refine written_memberCall (fun below => ?_) fun _ => written_passThrough
      rw [params]
      exact .conditionalBase rfl extends_ undeclared declared
    case isFalse => exact .throw _

theorem written_initialValue (field : Field) :
    Written env item a (a.push .any) (initialValue env field) := by
  unfold initialValue
  split
  · exact written_emitValue _
  · exact written_pushed rfl rfl (.refl _)

theorem written_initializeFields (fields : List Field) :
    Written env item a a (initializeFields env fields) := by
  induction fields with
  | nil => exact .pure _
  | cons field rest ih =>
    refine written_loadThis.bind fun _ => (written_initialValue field).bind fun _ => ?_
    exact Written.bind (b := a) (written_inward rfl (Nat.le_add_left 2 _) (.refl _)) fun _ => ih

/-- The user's initializer is skipped if the new object is of another type. -/
theorem runInitializer_eq (declaring : TypeEntry) (init : Routine) :
    runInitializer env entry declaring init =
      skipUnless (do
        loadThis env
        emit (.isExactType entry.name)) (do
        loadThis env
        loadContext env
        passThrough env
        emit (.call ((BodyName.method declaring.name init.name).atSite declaring.placement.site?)
          env.params.length true)
        emit .pop) := by
  simp only [runInitializer, skipUnless, bind_assoc]

theorem written_runInitializer {declaring : TypeEntry} {init : Routine}
    (resolved : env.table.resolveInitializer? entry = some (declaring, init))
    (params : env.params = initializerParams env.table entry) :
    Written env (.constructor entry) a a (runInitializer env entry declaring init) := by
  have same : env.params = init.params := by rw [params, initializerParams, resolved]
  rw [runInitializer_eq]
  refine .skip (written_loadThis.bind fun _ => written_replaced rfl rfl (.refl _)) ?_
  refine written_memberCall (fun below => ?_) fun _ => written_passThrough
  rw [same]
  exact .initializer rfl resolved

theorem written_returnNull : Written env item a a returnNull :=
  Written.bind (b := a.push .any) (written_pushed rfl rfl (.refl _)) fun _ =>
    written_popped rfl rfl (.refl _)

theorem written_contextCode : Written env item a a (contextCode env entry) := by
  unfold contextCode
  split
  · refine written_loadThis.bind fun _ => written_loadContext.bind fun _ => ?_
    refine Written.bind (b := (a.push .any).push .any) ?_ fun _ =>
      written_inward rfl (Nat.le_add_left 2 _) (.refl _)
    exact written_inward rfl (Nat.le_add_left 1 _) (.refl _)
  · exact .pure _

theorem written_baseCode (params : env.params = initializerParams env.table entry) :
    Written env (.constructor entry) a a (baseCode env entry) := by
  unfold baseCode
  split
  case h_1 base extends_ => exact written_forwardToBase extends_ params
  case h_2 => exact .pure _

theorem written_initializerCode (params : env.params = initializerParams env.table entry) :
    Written env (.constructor entry) a a (initializerCode env entry) := by
  unfold initializerCode
  split
  case h_1 declaring init resolved => exact written_runInitializer resolved params
  case h_2 => exact .pure _

/-- **The code of a constructor.** -/
theorem written_constructorCode (params : env.params = initializerParams env.table entry) :
    Written env (.constructor entry) a a (constructorCode env entry) := by
  rw [constructorCode_eq]
  refine Written.bind (b := a) ?_ fun _ => written_returnNull
  exact written_contextCode.bind fun _ => (written_baseCode params).bind fun _ =>
    (written_initializeFields _).bind fun _ => written_initializerCode params

/-! ## Initializers of static fields -/

/-- The values have been stored to static fields. -/
def Shape.storing (a : Shape) (stores : List Instruction) : Shape :=
  { a with stores := stores.reverse ++ a.stores }

theorem Shape.storing_cons (a : Shape) (i : Instruction) (stores : List Instruction) :
    a.storing (i :: stores) = Shape.storing { a with stores := i :: a.stores } stores := by
  simp [storing]

theorem written_initializeShared (h : ∀ field ∈ fields, field ∈ entry.sharedFields) :
    Written env (.sharedInitializer entry) a
      (a.storing (fields.map fun field => .storeShared entry.name field.name))
      (initializeShared env entry fields) := by
  induction fields generalizing a with
  | nil => exact .pure _
  | cons field rest ih =>
    obtain ⟨mem, hrest⟩ := List.forall_mem_cons.mp h
    rw [List.map_cons, Shape.storing_cons]
    refine (written_initialValue field).bind fun _ => Written.bind ?_ fun _ => ih hrest
    exact .emit (.sharedStore rfl mem) rfl (Nat.le_add_left 1 _)

theorem written_initializeBound (h : ∀ field ∈ fields, field ∈ entry.boundFields) :
    Written env (.boundInitializer entry) a
      (a.storing (fields.map fun field => .storeBound entry.name field.name))
      (initializeBound env entry fields) := by
  induction fields generalizing a with
  | nil => exact .pure _
  | cons field rest ih =>
    obtain ⟨mem, hrest⟩ := List.forall_mem_cons.mp h
    rw [List.map_cons, Shape.storing_cons]
    refine written_loadContext.bind fun _ => (written_initialValue field).bind fun _ =>
      Written.bind ?_ fun _ => ih hrest
    exact .emit (.boundStore rfl mem) rfl (Nat.le_add_left 2 _)

/-- **The code of an initializer of static fields** that all contexts share. -/
theorem written_sharedInitializerCode :
    Written env (.sharedInitializer entry) a
      (a.storing (entry.sharedFields.map fun field => .storeShared entry.name field.name))
      (sharedInitializerCode env entry) :=
  (written_initializeShared fun _ => id).bind fun _ => written_returnNull

/-- **The code of an initializer of static fields** of which every context has its own copy. -/
theorem written_boundInitializerCode :
    Written env (.boundInitializer entry) a
      (a.storing (entry.boundFields.map fun field => .storeBound entry.name field.name))
      (boundInitializerCode env entry) :=
  (written_initializeBound fun _ => id).bind fun _ => written_returnNull

/-! ## Other members -/

/-- **The code by which an object is called** like a function. -/
theorem written_invokeCode : Written env item a a (invokeCode env) := by
  rw [invokeCode_eq]
  refine Written.bind (b := a.push .any) ?_ fun _ => written_popped rfl rfl (.refl _)
  refine written_lateCall (fun _ => written_loadThis) fun value mem a => ?_
  rw [List.mem_singleton.mp mem]
  exact (written_argumentSlot _).bind fun _ => written_pushed rfl rfl (.refl _)

/-- The check that an object was created with a context. -/
theorem written_receiverCheck {routine : Routine} :
    Written env item a a (receiverCheck env routine) := by
  unfold receiverCheck
  split
  · exact written_loadThis.bind fun _ => (written_replaced rfl rfl (.refl _)).bind fun _ =>
      (written_replaced rfl rfl (.refl _)).bind fun _ => written_popped rfl rfl (.refl _)
  · exact .pure _

end Members

end StackScript
