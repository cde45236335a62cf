import StackScript.Outline

/-!
# Shapes of call sites

What compiled code and the binder agree on for a late-bound call: which name is looked up and what
the pushed arguments look like.

## Main definitions

* `SiteShape`: the number of a site, how its method is named, the shapes of its arguments
-/

namespace StackScript

/-- A method that the language itself calls. -/
inductive MagicMethod where
  | invoke
  | toText
  | construct
  deriving Repr, DecidableEq

namespace MagicMethod

/-- The name under which a type declares the method. -/
def methodName : MagicMethod → String
  | .invoke => "__invoke"
  | .toText => "__tostring"
  | .construct => "__construct"

def name : MagicMethod → String
  | .invoke => "Invoke"
  | .toText => "ToString"
  | .construct => "Construct"

end MagicMethod

/-- How the called method is named. -/
inductive Selector where
  | direct (name : String)
  /-- By the first pushed argument. -/
  | computed
  | magic (method : MagicMethod)
  deriving Repr, DecidableEq

/-- The shape of a pushed argument. -/
inductive ArgShape where
  | value
  /-- An array whose values are the arguments. -/
  | unpacked
  deriving Repr, DecidableEq

namespace ArgShape

def name : ArgShape → String
  | .value => "Value"
  | .unpacked => "Unpack"

end ArgShape

/-- The number of a call site. -/
abbrev SiteId := Nat

/-- A call site number as messages show it. -/
def showSite (id : SiteId) : String := "#" ++ toString id

/-- A late-bound call as compiled code describes it. -/
structure SiteShape where
  id : SiteId
  selector : Selector
  args : List ArgShape
  deriving Repr, DecidableEq

namespace SiteShape

/-- The name that messages use for the called method. -/
def displayName (shape : SiteShape) : String :=
  match shape.selector with
  | .direct name => name
  | .computed => "\x7bcomputed\x7d"
  | .magic method => method.methodName

/-- The number of values pushed behind the receiver and the context. -/
def pushedCount (shape : SiteShape) : Nat := shape.args.length

def outlineSelector : Selector → Outline
  | .direct name => .tagged "Direct" (.text name)
  | .computed => .word "Computed"
  | .magic method => .tagged "Magic" (.word method.name)

def outline (shape : SiteShape) : Outline :=
  .record "CallSiteDescriptor" [
    ("id", .wrapped "CallSiteId" (.nat shape.id)),
    ("strategy", outlineSelector shape.selector),
    ("args", .list (shape.args.map fun arg => .word arg.name))]

end SiteShape

end StackScript
