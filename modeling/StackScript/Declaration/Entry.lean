import StackScript.Source

/-!
# Declarations and their files

Files are known by a normal form of their paths: lower case, `/` between the parts, no empty parts
and none that name the current directory, and relative to the base directory if they lie in it.

## Main definitions

* `normalizePath`: the normal form
* `FunctionEntry`, `TypeEntry`: declarations with the place where they stand
* `FileEntry.ofUnit`: the declarations of a file, those of conditional groups included
-/

namespace StackScript

/-- A path in lower case with `/` as its only separator. -/
def foldPath (path : String) : List Char :=
  Text.lowercaseFrom [] (path.toList.map fun c => if c = '\\' then '/' else c)

/-- A directory without separators at its end. -/
def trimSeparators (cs : List Char) : List Char :=
  (cs.reverse.dropWhile (· == '/')).reverse

/-- What is left of a path behind a directory; none if the path is not that directory or inside
it. -/
def relativeTo? (directory path : List Char) : Option (List Char) :=
  if directory.isPrefixOf path then
    match path.drop directory.length with
    | [] => some []
    | '/' :: rest => some ('/' :: rest)
    | _ => none
  else none

/-- The parts of a path between its separators. -/
def pathParts : List Char → List (List Char)
  | [] => [[]]
  | c :: rest =>
    if c = '/' then [] :: pathParts rest
    else match pathParts rest with
      | part :: parts => (c :: part) :: parts
      | [] => [[c]]

/-- A part that says nothing: empty, or the current directory. -/
def isEmptyPart (part : List Char) : Bool := part == [] || part == ['.']

/-- The parts with `/` between them. -/
def joinParts (parts : List (List Char)) : List Char := ['/'].intercalate parts

/-- The path relative to the base directory, where one is given and holds the path. -/
def stripBase (base : Option String) (path : List Char) : List Char :=
  match base with
  | none => path
  | some base =>
    match trimSeparators (foldPath base) with
    | [] => path
    | directory => (relativeTo? directory path).getD path

/-- The normal form of a path. -/
def normalizePath (base : Option String) (path : String) : String :=
  String.ofList (joinParts ((pathParts (stripBase base (foldPath path))).filter (!isEmptyPart ·)))

/-- The method that runs when an object is called like a function. -/
def magicInvoke : String := "__invoke"

/-- The method by which a program initializes a new object. -/
def userInitializer : String := "__construct"

/-- The place of a declaration: the number of its unit, and its number among the declarations of
the unit, conditional groups read through. -/
structure Origin where
  unit : Nat
  item : Nat
  deriving Repr, DecidableEq

/-- What a declaration of any kind knows about its place. -/
structure Placement where
  /-- The normal form of the path of the file. -/
  file : String
  conditional : Bool
  origin : Origin
  deriving Repr, DecidableEq

namespace Placement

/-- The tag of a conditional declaration. -/
def site? (placement : Placement) : Option String :=
  if placement.conditional then some (placement.file ++ "#" ++ toString placement.origin.item)
  else none

end Placement

/-- A declared function. -/
structure FunctionEntry where
  name : QualifiedName
  placement : Placement
  routine : Routine

/-- A declared type. -/
structure TypeEntry where
  name : QualifiedName
  placement : Placement
  base : Option QualifiedName
  fields : List Field
  methods : List Routine
  threadsContext : Bool
  callable : Bool

namespace TypeEntry

/-- The first method of that name which the type declares itself. -/
def method? (entry : TypeEntry) (name : String) : Option Routine :=
  entry.methods.find? (·.isNamed name)

/-- The first field of exactly that name which the type declares itself. -/
def field? (entry : TypeEntry) (name : String) : Option Field :=
  entry.fields.find? (·.name == name)

def instanceFields (entry : TypeEntry) : List Field := entry.fields.filter (!·.isStatic)

def staticFields (entry : TypeEntry) : List Field := entry.fields.filter (·.isStatic)

/-- The static fields that every context has its own copy of. -/
def boundFields (entry : TypeEntry) : List Field := entry.staticFields.filter (·.requiresContext)

/-- The static fields that all contexts share. -/
def sharedFields (entry : TypeEntry) : List Field := entry.staticFields.filter (!·.requiresContext)

/-- The type has static fields of which every context has its own copy. -/
def hasBoundFields (entry : TypeEntry) : Bool := entry.staticFields.any (·.requiresContext)

/-- The type has static fields that all contexts share. -/
def hasSharedFields (entry : TypeEntry) : Bool := entry.staticFields.any (!·.requiresContext)

/-- Objects of the type can be called like functions, and the type says what happens then. -/
def handlesInvoke (entry : TypeEntry) : Bool :=
  entry.callable && (entry.method? magicInvoke).isSome

/-- The constructor of the type itself stores the context in new objects. -/
def storesContext (entry : TypeEntry) : Bool := entry.threadsContext || entry.base.isNone

/-- The name of a member of the type that has no declaration of its own. -/
def bodyName (entry : TypeEntry) (member : String) : BodyName :=
  (BodyName.method entry.name member).atSite entry.placement.site?

end TypeEntry

/-- A declaration. -/
inductive Declaration where
  | function (entry : FunctionEntry)
  | type (entry : TypeEntry)

namespace Declaration

def name : Declaration → QualifiedName
  | .function entry => entry.name
  | .type entry => entry.name

def placement : Declaration → Placement
  | .function entry => entry.placement
  | .type entry => entry.placement

/-- The declaration introduces a type. -/
def isType : Declaration → Bool
  | .function _ => false
  | .type _ => true

/-- The declaration, if it is one of a function. -/
def function? : Declaration → Option FunctionEntry
  | .function entry => some entry
  | .type _ => none

/-- The declaration, if it is one of a type. -/
def type? : Declaration → Option TypeEntry
  | .function _ => none
  | .type entry => some entry

end Declaration

/-- A routine or a type as it stands in a file. -/
inductive Declared where
  | function (routine : Routine)
  | type (declaration : TypeDeclaration)

mutual

/-- The declarations of an item, depth first, each with the knowledge whether a conditional group
is around it. -/
def Item.declared (conditional : Bool) : Item → List (Bool × Declared)
  | .function routine => [(conditional, .function routine)]
  | .type declaration => [(conditional, .type declaration)]
  | .conditional items => declaredItems true items

/-- The declarations of a list of items. -/
def declaredItems (conditional : Bool) : List Item → List (Bool × Declared)
  | [] => []
  | item :: rest => item.declared conditional ++ declaredItems conditional rest

end

namespace Declared

/-- The method of a type: it belongs to the type unless it names another owner, and carries the
context if the objects of the type do. -/
def adoptMethod (declaration : TypeDeclaration) (method : Routine) : Routine :=
  { method with
    owner := some (method.owner.getD declaration.name)
    threadsContext :=
      method.threadsContext || (declaration.threadsContext && !method.isStatic) }

/-- The declaration at a place. -/
def entryAt (placement : Placement) : Declared → Declaration
  | .function routine => .function ⟨QualifiedName.ofString routine.name, placement, routine⟩
  | .type declaration => .type {
      name := declaration.name
      placement
      base := declaration.base
      fields := declaration.fields
      methods := declaration.methods.map (adoptMethod declaration)
      threadsContext := declaration.threadsContext
      callable := declaration.callable }

end Declared

/-- A file with its declarations in source order. -/
structure FileEntry where
  /-- The normal form of the path. -/
  path : String
  /-- The path as it was given. -/
  sourcePath : String
  unit : Nat
  declarations : List Declaration

namespace FileEntry

/-- The file of a unit. -/
def ofUnit (base : Option String) (index : Nat) (unit : SourceUnit) : FileEntry :=
  let path := normalizePath base unit.path
  { path
    sourcePath := unit.path
    unit := index
    declarations := (declaredItems false unit.items).zipIdx.map
      fun ((conditional, declared), item) =>
        declared.entryAt ⟨path, conditional, ⟨index, item⟩⟩ }

def functions (file : FileEntry) : List FunctionEntry :=
  file.declarations.filterMap (·.function?)

def types (file : FileEntry) : List TypeEntry := file.declarations.filterMap (·.type?)

/-- The first conditional function of the file with that name. -/
def conditionalFunction? (file : FileEntry) (name : String) : Option FunctionEntry :=
  file.functions.find? fun entry => entry.placement.conditional && entry.name.spelledBy name

end FileEntry

end StackScript
