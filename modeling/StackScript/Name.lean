import StackScript.Outline

/-!
# Names

Functions and types are named by path, and the names of the language are read without regard to
the case of ASCII letters. A qualified name keeps the spelling of its declaration for messages and
is compared by its key. A compiled body is named by the function or member that it belongs to.

## Main definitions

* `QualifiedName`, `QualifiedName.ofString`: a name, read with or without leading backslashes
* `QualifiedName.key`: what equality and order look at
* `nameKey`: the key of a name given as text
* `BodyName`: the name of a function or member, with the place of its declaration if that is
  conditional
* `BodyName.key`: what calls look bodies up by
-/

namespace StackScript

/-! ## Qualified names -/

/-- A name without its leading backslashes. -/
def trimRoot (name : String) : String := String.ofList (name.toList.dropWhile (· == '\\'))

/-- The key under which a name is known: no leading backslashes, ASCII letters in lower case. -/
def nameKey (name : String) : String := Text.foldCase (trimRoot name)

/-- A name as it was written, without leading backslashes. -/
structure QualifiedName where
  text : String
  deriving Repr

namespace QualifiedName

/-- The qualified name that a text spells. -/
def ofString (name : String) : QualifiedName := ⟨trimRoot name⟩

/-- Two names are the same name if their keys are equal. -/
def key (name : QualifiedName) : String := Text.foldCase name.text

/-- The text spells this name. -/
def spelledBy (name : QualifiedName) (other : String) : Bool := name.key == nameKey other

instance : BEq QualifiedName := ⟨fun a b => a.key == b.key⟩

/-- Names are ordered by their keys. -/
def order (a b : QualifiedName) : Ordering := compare a.key b.key

/-- The part of the name behind its last backslash. -/
def shortName (name : QualifiedName) : String :=
  String.ofList (name.text.toList.reverse.takeWhile (· != '\\')).reverse

instance : ToString QualifiedName := ⟨text⟩

/-- The name between quotes, as messages describe it. -/
def describe (name : QualifiedName) : String := Text.quote name.text

end QualifiedName

/-! ## Names of compiled bodies -/

/-- The name of a compiled body. -/
structure BodyName where
  /-- The type that the member belongs to. -/
  owner : Option QualifiedName
  name : String
  /-- The place of a conditional declaration. -/
  site : Option String
  deriving Repr

namespace BodyName

/-- The member that initializes a new object. -/
def constructorName : String := ".ctor"

/-- The member that initializes the static fields shared by all contexts. -/
def typeInitializerName : String := ".cctor"

/-- The member that initializes the static fields of a context. -/
def staticsInitializerName : String := "<init_statics>"

/-- The member by which an object is called like a function. -/
def invokeName : String := "<invoke>"

def function (name : QualifiedName) : BodyName := ⟨none, name.text, none⟩

def method (owner : QualifiedName) (name : String) : BodyName := ⟨some owner, name, none⟩

def constructor (owner : QualifiedName) : BodyName := method owner constructorName

/-- The body declared at a place. -/
def atSite (name : BodyName) (site : Option String) : BodyName := { name with site := site }

/-- The name with `::` behind the owner and `@` before the place. -/
def text (name : BodyName) : String :=
  (match name.owner with
    | some owner => owner.text ++ "::" ++ name.name
    | none => name.name) ++
  match name.site with
  | some site => "@" ++ site
  | none => ""

/-- The name without regard to letter case: bodies with equal keys cannot be told apart. -/
def key (name : BodyName) : String :=
  (match name.owner with
    | some owner => owner.key ++ "::" ++ Text.foldCase name.name
    | none => Text.foldCase name.name) ++
  match name.site with
  | some site => "@" ++ Text.foldCase site
  | none => ""

def outline (name : BodyName) : Outline :=
  .record "MethodRef" [
    ("owner", .ofOption (fun owner => .text owner.text) name.owner),
    ("name", .text name.name),
    ("site", match name.site with
      | some site => .present (.text site)
      | none => .omitted)]

end BodyName

end StackScript
