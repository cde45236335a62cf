import StackScript.Lowering.Item
import StackScript.Proofs.Writing.Syntax

/-!
# Code and settings

Expressions, and the members that types have without a declaration, are written alike whatever the
settings are. The settings matter for statements, which may be marked with their places, and for the
check of a receiver, and that is all.

## Main definitions

* `BodyEnv.withSettings`: the same surroundings with other settings

## Main results

* `lower_withSettings`, `emitAction_withSettings`: expressions and what statements do
* `constructorCode_withSettings`: members without a declaration
-/

namespace StackScript

open Emit

/-- The same surroundings with other settings. -/
def BodyEnv.withSettings (env : BodyEnv) (settings : Settings) : BodyEnv := { env with settings }

variable (env : BodyEnv) (settings : Settings)

/-! ## Expressions -/

theorem pushArguments_withSettings (callee : String) (params : List Parameter)
    (args : List Lowered) :
    pushArguments (env.withSettings settings) callee params args =
      pushArguments env callee params args := by
  induction params generalizing args with
  | nil => rfl
  | cons param params ih =>
    have context : loadContext (env.withSettings settings) = loadContext env := rfl
    simp only [pushArguments, context, ih]

theorem lowerCall_withSettings (function : QualifiedName) (args : List Lowered) :
    lowerCall (env.withSettings settings) function args = lowerCall env function args := by
  simp only [lowerCall, pushArguments_withSettings]
  rfl

theorem lowerMethodCall_withSettings (receiver : Emit Unit) (name : LoweredName)
    (args : List LoweredArgument) (receiverType : Option QualifiedName) :
    lowerMethodCall (env.withSettings settings) receiver name args receiverType =
      lowerMethodCall env receiver name args receiverType := by
  simp only [lowerMethodCall, pushArguments_withSettings]
  rfl

theorem lowerCreate_withSettings (type : QualifiedName) (args : List Lowered) :
    lowerCreate (env.withSettings settings) type args = lowerCreate env type args := by
  simp only [lowerCreate, pushArguments_withSettings]
  rfl

/-- **Expressions are written alike** with all settings. -/
theorem lower_withSettings (e : Expr) : lower (env.withSettings settings) e = lower env e := by
  induction e using Expr.induction with
  | literal value => simp only [lower]
  | var name =>
    simp only [lower]
    rfl
  | assign target value ih =>
    simp only [lower, ih]
    rfl
  | binary op left right ihl ihr => simp only [lower, ihl, ihr]
  | unary op operand ih => simp only [lower, ih]
  | call function args ih =>
    have args : args.map (lower (env.withSettings settings)) = args.map (lower env) :=
      List.map_congr_left ih
    simp only [lower, lowerAll_eq, args, lowerCall_withSettings]
  | methodCall receiver name args receiverType ihr ihn iha =>
    have args : args.map (lowerArgument (env.withSettings settings)) =
        args.map (lowerArgument env) := by
      refine List.map_congr_left fun arg mem => ?_
      have value := iha arg mem
      cases arg <;> simp only [Argument.value] at value <;> simp only [lowerArgument, value]
    have name : lowerName (env.withSettings settings) name = lowerName env name := by
      cases name with
      | direct => simp only [lowerName]
      | computed value => simp only [lowerName, ihn value List.mem_cons_self]
    simp only [lower, lowerArguments_eq, ihr, args, name, lowerMethodCall_withSettings]
  | create type args ih =>
    have args : args.map (lower (env.withSettings settings)) = args.map (lower env) :=
      List.map_congr_left ih
    simp only [lower, lowerAll_eq, args, lowerCreate_withSettings]
  | this =>
    simp only [lower]
    rfl
  | fieldLoad receiver field ih => simp only [lower, ih]
  | fieldStore receiver field value ihr ihv => simp only [lower, ihr, ihv]
  | staticLoad type field =>
    simp only [lower]
    rfl
  | staticStore type field value ih =>
    simp only [lower, ih]
    rfl
  | array entries ih =>
    have entries : entries.map (lowerEntry (env.withSettings settings)) =
        entries.map (lowerEntry env) := by
      refine List.map_congr_left fun entry mem => ?_
      have ih := ih entry mem
      cases entry with
      | item value => simp only [lowerEntry, ih value List.mem_cons_self]
      | keyed key value =>
        simp only [lowerEntry, ih key List.mem_cons_self,
          ih value (List.mem_cons_of_mem _ List.mem_cons_self)]
    simp only [lower, lowerEntries_eq, entries]
  | instanceOf value type ih => simp only [lower, ih]

theorem emitValue_withSettings (e : Expr) :
    emitValue (env.withSettings settings) e = emitValue env e := by
  rw [emitValue, lower_withSettings, emitValue]

/-- What a statement does is written alike; whether its place is noted is another matter. -/
theorem emitAction_withSettings (action : Action) :
    emitAction (env.withSettings settings) action = emitAction env action := by
  cases action with
  | eval value => simp only [emitAction, emitEffect, lower_withSettings]
  | echo value =>
    simp only [emitAction, emitValue_withSettings]
    rfl
  | «return» value => cases value <;> simp only [emitAction, emitValue_withSettings]
  | throw value => simp only [emitAction, emitValue_withSettings]

/-! ## Members without a declaration -/

theorem passThroughFrom_withSettings (index : Nat) (params : List Parameter) :
    passThroughFrom (env.withSettings settings) index params = passThroughFrom env index params := by
  induction params generalizing index with
  | nil => rfl
  | cons param rest ih =>
    have context : loadContext (env.withSettings settings) = loadContext env := rfl
    simp only [passThroughFrom, context, ih]

theorem forwardParameters_withSettings (base : QualifiedName) (own : List OwnParameter)
    (params : List Parameter) :
    forwardParameters (env.withSettings settings) base own params =
      forwardParameters env base own params := by
  induction params generalizing own with
  | nil => rfl
  | cons param rest ih =>
    have context : loadContext (env.withSettings settings) = loadContext env := rfl
    simp only [forwardParameters, context, ih]

theorem initialValue_withSettings (field : Field) :
    initialValue (env.withSettings settings) field = initialValue env field := by
  simp only [initialValue, emitValue_withSettings]

theorem initializeFields_withSettings (fields : List Field) :
    initializeFields (env.withSettings settings) fields = initializeFields env fields := by
  induction fields with
  | nil => rfl
  | cons field rest ih =>
    have this : loadThis (env.withSettings settings) = loadThis env := rfl
    simp only [initializeFields, this, initialValue_withSettings, ih]

/-- **Constructors are written alike** with all settings. -/
theorem constructorCode_withSettings (entry : TypeEntry) :
    constructorCode (env.withSettings settings) entry = constructorCode env entry := by
  have pass : passThrough (env.withSettings settings) = passThrough env :=
    passThroughFrom_withSettings env settings 0 env.params
  have base (base : QualifiedName) :
      forwardToBase (env.withSettings settings) base = forwardToBase env base := by
    simp only [forwardToBase, pass, forwardParameters_withSettings]
    rfl
  have initializer (declaring : TypeEntry) (init : Routine) :
      runInitializer (env.withSettings settings) entry declaring init =
        runInitializer env entry declaring init := by
    simp only [runInitializer, pass]
    rfl
  simp only [constructorCode, base, initializer, initializeFields_withSettings]
  rfl

theorem initializeShared_withSettings (entry : TypeEntry) (fields : List Field) :
    initializeShared (env.withSettings settings) entry fields =
      initializeShared env entry fields := by
  induction fields with
  | nil => rfl
  | cons field rest ih => simp only [initializeShared, initialValue_withSettings, ih]

theorem initializeBound_withSettings (entry : TypeEntry) (fields : List Field) :
    initializeBound (env.withSettings settings) entry fields =
      initializeBound env entry fields := by
  induction fields with
  | nil => rfl
  | cons field rest ih =>
    have context : loadContext (env.withSettings settings) = loadContext env := rfl
    simp only [initializeBound, context, initialValue_withSettings, ih]

/-- **Initializers of static fields are written alike** with all settings. -/
theorem sharedInitializerCode_withSettings (entry : TypeEntry) :
    sharedInitializerCode (env.withSettings settings) entry = sharedInitializerCode env entry := by
  rw [sharedInitializerCode, initializeShared_withSettings, sharedInitializerCode]

theorem boundInitializerCode_withSettings (entry : TypeEntry) :
    boundInitializerCode (env.withSettings settings) entry = boundInitializerCode env entry := by
  rw [boundInitializerCode, initializeBound_withSettings, boundInitializerCode]

end StackScript
