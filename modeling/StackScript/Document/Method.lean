import StackScript.Document.Access
import StackScript.Value.RuntimeType

/-!
# Methods as documents

## Main definitions

* `Formal.ofJson`: reading the parameters that a method declares
* `Method.outline`: writing what a method declares
-/

namespace StackScript

def Representation.ofJson : Json → Decode Representation :=
  Json.oneOf ([.value, .bool, .long, .double, .string, .array, .object].map
    fun representation : Representation => (representation.describe, representation))

/-- A parameter: the context, or a name with the shape of its values. -/
def Formal.ofJson : Json → Decode Formal
  | .string "Context" => return ⟨Formal.contextName, .context⟩
  | .array [name, representation] =>
    return ⟨← name.text, .supplied (← Representation.ofJson representation)⟩
  | _ => malformed

/-- The outline of a method: its names, its parameters, and its description. -/
def Method.outline (method : Method) : Outline :=
  .record "Method" [
    ("name", .text method.name), ("declaring_type", .text method.declaringType),
    ("value_params", .nat method.suppliedCount),
    ("params", .list (method.formals.map fun formal =>
      .list [.text formal.name, .bool formal.isContext])),
    ("debug", .text method.describe)]

end StackScript
