import StackScript.Declaration.Entry

/-!
# The declaration table

The units of a program are visited in any order. Unconditional declarations are collected by their
kinds and keys on the way; which of them keeps its name, and which ones repeat an earlier one, is
settled by their places when all units have been visited.

The table has all declarations of a program. A name may be declared unconditionally only once among
the functions and once among the types; conditional declarations are kept with their files and are
found by name only where nothing else will do.

## Main definitions

* `Redeclaration`: a name that is declared twice
* `Population.visit`: the visit of a unit
* `Population.freeze`: the files of the visited units, or the first redeclaration
* `Table`, `Table.ofVisits`: the table of files visited in any order
* `Table.function?`, `Table.type?`: the unconditional declaration of a name
* `Table.baseChain`: a type and its bases
* `Table.resolveMethod?`, `Table.resolveInitializer?`, `Table.resolveStatic?`: members through the
  bases
-/

namespace StackScript

/-- A name that is declared twice. -/
structure Redeclaration where
  isType : Bool
  name : String
  /-- The path of the earlier declaration, as it was given. -/
  first : String
  /-- The path of the later declaration, as it was given. -/
  second : String
  deriving Repr, DecidableEq

namespace Redeclaration

def message (error : Redeclaration) : String :=
  "cannot redeclare " ++ (if error.isType then "type" else "function") ++ " " ++ error.name ++
    " in " ++ error.second ++ " (previously declared in " ++ error.first ++ ")"

end Redeclaration

/-- Places are compared by the unit first. -/
def Origin.upTo (a b : Origin) : Bool :=
  a.unit < b.unit || (a.unit == b.unit && a.item ≤ b.item)

/-- Declarations of one kind by the keys of their names. -/
abbrev Groups := List (String × List Declaration)

namespace Groups

/-- One declaration more. -/
def push (declaration : Declaration) : Groups → Groups
  | [] => [(declaration.name.key, [declaration])]
  | (key, members) :: rest =>
    if key = declaration.name.key then (key, members ++ [declaration]) :: rest
    else (key, members) :: push declaration rest

end Groups

/-- The path of the unit of a place, as it was given. The files stand in the order of the units. -/
def sourcePathAt (files : List FileEntry) (origin : Origin) : String :=
  (files[origin.unit]?.map (·.sourcePath)).getD ""

/-- The redeclarations among the declarations of one name, with their places: all but the earliest
declaration. -/
def repetitions (files : List FileEntry) (members : List Declaration) :
    List (Origin × Redeclaration) :=
  match members.mergeSort fun a b => a.placement.origin.upTo b.placement.origin with
  | [] => []
  | first :: later => later.map fun duplicate =>
    (duplicate.placement.origin, ⟨duplicate.isType, duplicate.name.text,
      sourcePathAt files first.placement.origin, sourcePathAt files duplicate.placement.origin⟩)

/-- The earliest of some redeclarations. -/
def earliest? : List (Origin × Redeclaration) → Option (Origin × Redeclaration)
  | [] => none
  | conflict :: rest =>
    match earliest? rest with
    | none => some conflict
    | some other => if conflict.1.upTo other.1 then some conflict else some other

/-- What is known of the units that have been visited. -/
structure Population where
  /-- The unconditional functions. -/
  functions : Groups
  /-- The unconditional types. -/
  types : Groups
  files : List FileEntry

namespace Population

/-- No unit has been visited. -/
def empty : Population := ⟨[], [], []⟩

/-- A declaration is visited. -/
def collect (population : Population) (declaration : Declaration) : Population :=
  if declaration.placement.conditional then population
  else if declaration.isType then
    { population with types := population.types.push declaration }
  else { population with functions := population.functions.push declaration }

/-- A unit is visited, with its number. -/
def visit (base : Option String) (population : Population) (visited : Nat × SourceUnit) :
    Population :=
  let file := FileEntry.ofUnit base visited.1 visited.2
  let population := file.declarations.foldl collect population
  { population with files := population.files ++ [file] }

/-- Units are visited, one after the other. -/
def ofVisits (base : Option String) (visits : List (Nat × SourceUnit)) : Population :=
  visits.foldl (visit base) .empty

/-- The files in the order of the units, unless something is declared twice. -/
def freeze (population : Population) : Except Redeclaration (List FileEntry) :=
  let files := population.files.mergeSort fun a b => a.unit ≤ b.unit
  let conflicts := (population.functions ++ population.types).flatMap fun group =>
    repetitions files group.2
  match earliest? conflicts with
  | some (_, error) => .error error
  | none => .ok files

end Population

/-- The declarations of a program, file by file in the order of the units. -/
structure Table where
  files : List FileEntry
  baseDirectory : Option String

namespace Table

/-- The table of the units of a program, visited in any order, each with its number. -/
def ofVisits (base : Option String) (visits : List (Nat × SourceUnit)) :
    Except Redeclaration Table :=
  (Population.ofVisits base visits).freeze.map fun files => ⟨files, base⟩

/-- The table of a program. -/
def ofUnits (base : Option String) (units : List SourceUnit) : Except Redeclaration Table :=
  ofVisits base (units.zipIdx.map fun (unit, index) => (index, unit))

/-- The file of a path; of several files with one path the last. -/
def file? (table : Table) (path : String) : Option FileEntry :=
  let key := normalizePath table.baseDirectory path
  table.files.reverse.find? (·.path == key)

/-- The file where the program starts. -/
def firstScript? (table : Table) : Option FileEntry := table.files.head?

/-- All functions in the order of the files, conditional ones included. -/
def functions (table : Table) : List FunctionEntry := table.files.flatMap (·.functions)

/-- All types in the order of the files, conditional ones included. -/
def types (table : Table) : List TypeEntry := table.files.flatMap (·.types)

/-- The unconditional function of a name. -/
def function? (table : Table) (name : String) : Option FunctionEntry :=
  let key := nameKey name
  table.functions.find? fun entry => !entry.placement.conditional && entry.name.key == key

/-- The unconditional type of a name. -/
def type? (table : Table) (name : String) : Option TypeEntry :=
  let key := nameKey name
  table.types.find? fun entry => !entry.placement.conditional && entry.name.key == key

/-- The first type of a name, conditional or not. -/
def anyType? (table : Table) (name : String) : Option TypeEntry :=
  let key := nameKey name
  table.types.find? fun entry => entry.name.key == key

/-- Some declaration, conditional or not, introduces a type of that name. -/
def declaresType (table : Table) (name : String) : Bool :=
  (table.type? name).isSome || (table.anyType? name).isSome

/-- The bases of a type, nearest first, as long as they are declared unconditionally and none
comes again. Every base is another type, so there are at most as many steps as types. -/
def basesFrom (table : Table) : Nat → List String → TypeEntry → List TypeEntry
  | 0, _, _ => []
  | steps + 1, seen, entry =>
    match entry.base with
    | none => []
    | some base =>
      match table.type? base.text with
      | none => []
      | some next =>
        if seen.contains next.name.key then []
        else next :: basesFrom table steps (next.name.key :: seen) next

/-- A type and its bases, nearest first. The walk ends at a base that is not declared
unconditionally, and where the bases begin to repeat. -/
def baseChain (table : Table) (entry : TypeEntry) : List TypeEntry :=
  entry :: table.basesFrom (table.types.length + 1) [entry.name.key] entry

/-- The method of that name in the nearest of a type and its bases that declares one. -/
def resolveMethod? (table : Table) (type name : String) : Option (TypeEntry × Routine) :=
  match table.type? type with
  | none => none
  | some entry =>
    (table.baseChain entry).findSome? fun t => (t.method? name).map fun method => (t, method)

/-- The initializer that runs for new objects of a type: its own, else that of the nearest base. -/
def resolveInitializer? (table : Table) (entry : TypeEntry) : Option (TypeEntry × Routine) :=
  (table.baseChain entry).findSome? fun t =>
    (t.method? userInitializer).map fun method => (t, method)

/-- The type declares that static field itself. -/
def declaresStatic (entry : TypeEntry) (field : String) : Bool :=
  match entry.field? field with
  | some field => field.isStatic
  | none => false

/-- The type that declares a static field, seen from a type of that name. If the name is declared
only conditionally, its first declaration counts. -/
def resolveStatic? (table : Table) (type field : String) : Option TypeEntry :=
  match (table.type? type).or (table.anyType? type) with
  | none => none
  | some entry => (table.baseChain entry).find? (declaresStatic · field)

end Table

end StackScript
