import Mathlib.Data.List.Pairwise
import StackScript.Proofs.Declaration.Gathering

/-!
# Population is exact

A declaration stands in a program at a place: the number of its unit, and a path through the
conditional groups around it. In the order of their places, declarations come unit by unit, and
depth first within a unit.

The units of a program may be visited in any order. Either some name is declared twice, and the error
is about the first declaration that repeats an earlier one; or every name finds its unconditional
declaration, and all declarations are enumerated in the order of their places.

## Main definitions

* `StandsIn`, `DeclaredAt`: what stands at a place, in the source
* `Declaration.At`: the declaration that is made of it
* `Repeats`: two places where one name is declared
* `Enumerates`: a list has all declarations of a kind
* `Groups.settled?`: what the map of the settled declarations holds for a name
* `Table.Populated`: what population has to come to
* `Table.ofFiles?`: the table of files in their order

## Main results

* `pairwise_placedIn`, `exists_mem_placedIn`: the declarations of a program with their places
* `Table.populated_of_visits`: population is exact and independent of the order
* `Table.ofUnits_eq_ok_iff`: the files of a table stand in the order of the units
-/

namespace StackScript

variable (all : List Declaration)

/-! ## Places in the source -/

/-- A declaration stands in a list of items at a path: the numbers of the conditional groups around
it, the outermost first, and then its own. -/
inductive StandsIn : List Item → List Nat → Declared → Prop
  | function {items n routine} : items[n]? = some (.function routine) →
      StandsIn items [n] (.function routine)
  | type {items n declaration} : items[n]? = some (.type declaration) →
      StandsIn items [n] (.type declaration)
  | inside {items n group path declared} : items[n]? = some (.conditional group) →
      StandsIn group path declared → StandsIn items (n :: path) declared

mutual

/-- The declarations of the item with that number, with their paths. -/
def Item.placed (n : Nat) : Item → List (List Nat × Declared)
  | .function routine => [([n], .function routine)]
  | .type declaration => [([n], .type declaration)]
  | .conditional items => (placedItems 0 items).map fun x => (n :: x.1, x.2)

/-- The declarations of items that are numbered from a number on, with their paths. -/
def placedItems (n : Nat) : List Item → List (List Nat × Declared)
  | [] => []
  | item :: rest => item.placed n ++ placedItems (n + 1) rest

end

section Placed

variable {x y : List Nat × Declared} {n : Nat} {item : Item} {items : List Item}
  {path : List Nat} {declared : Declared}

theorem head_of_mem_placed (h : x ∈ item.placed n) : ∃ path, x.1 = n :: path := by
  cases item with
  | function | type =>
    cases List.mem_singleton.mp h
    exact ⟨[], rfl⟩
  | conditional =>
    obtain ⟨y, -, rfl⟩ := List.mem_map.mp h
    exact ⟨y.1, rfl⟩

theorem head_of_mem_placedItems (h : x ∈ placedItems n items) :
    ∃ k path, n ≤ k ∧ x.1 = k :: path := by
  induction items generalizing n with
  | nil => cases h
  | cons item rest ih =>
    obtain h | h := List.mem_append.mp h
    · obtain ⟨path, eq⟩ := head_of_mem_placed h
      exact ⟨n, path, Nat.le_refl _, eq⟩
    · obtain ⟨k, path, le, eq⟩ := ih h
      exact ⟨k, path, Nat.le_of_succ_le le, eq⟩

theorem mem_placedItems_of_mem_placed {k : Nat} (h : items[k]? = some item)
    (mem : x ∈ item.placed (n + k)) : x ∈ placedItems n items := by
  induction items generalizing n k with
  | nil => cases h
  | cons first rest ih =>
    cases k with
    | zero =>
      cases h
      exact List.mem_append_left _ mem
    | succ k =>
      refine List.mem_append_right _ (ih h ?_)
      rwa [Nat.add_right_comm]

/-- What stands somewhere is among the placed items. -/
theorem StandsIn.mem (h : StandsIn items path declared) : (path, declared) ∈ placedItems 0 items := by
  induction h with
  | function found | type found =>
    refine mem_placedItems_of_mem_placed found ?_
    simp [Item.placed]
  | inside found _ ih =>
    refine mem_placedItems_of_mem_placed found ?_
    rw [Nat.zero_add]
    exact List.mem_map_of_mem ih

mutual

theorem Item.standsIn_of_mem_placed {n : Nat} {x : List Nat × Declared} {items : List Item} :
    (item : Item) → items[n]? = some item → x ∈ item.placed n → StandsIn items x.1 x.2
  | .function _, found, h => by
    cases List.mem_singleton.mp h
    exact .function found
  | .type _, found, h => by
    cases List.mem_singleton.mp h
    exact .type found
  | .conditional group, found, h => by
    obtain ⟨y, mem, rfl⟩ := List.mem_map.mp h
    exact .inside found (standsIn_of_mem_placedItems group (fun _ => by simp) mem)

theorem standsIn_of_mem_placedItems {n : Nat} {x : List Nat × Declared} {all : List Item} :
    (items : List Item) → (∀ k, items[k]? = all[n + k]?) → x ∈ placedItems n items →
      StandsIn all x.1 x.2
  | [], _, h => nomatch h
  | item :: rest, behind, h => by
    obtain h | h := List.mem_append.mp h
    · exact item.standsIn_of_mem_placed (behind 0).symm h
    · refine standsIn_of_mem_placedItems rest (fun k => ?_) h
      rw [← List.getElem?_cons_succ (a := item), behind, Nat.add_right_comm, Nat.add_assoc]

end

mutual

/-- The declarations of an item, without their paths. -/
theorem Item.declared_eq (conditional : Bool) (n : Nat) : (item : Item) →
    item.declared conditional =
      (item.placed n).map fun x => (conditional || decide (1 < x.1.length), x.2)
  | .function _ => by simp [Item.declared, Item.placed]
  | .type _ => by simp [Item.declared, Item.placed]
  | .conditional items => by
    rw [Item.declared, Item.placed, declaredItems_eq true 0 items, List.map_map]
    refine List.map_congr_left fun x mem => ?_
    obtain ⟨k, path, -, eq⟩ := head_of_mem_placedItems mem
    simp [eq]

theorem declaredItems_eq (conditional : Bool) (n : Nat) : (items : List Item) →
    declaredItems conditional items =
      (placedItems n items).map fun x => (conditional || decide (1 < x.1.length), x.2)
  | [] => rfl
  | item :: rest => by
    rw [declaredItems, placedItems, List.map_append, item.declared_eq conditional n,
      declaredItems_eq conditional (n + 1) rest]

end

mutual

theorem Item.pairwise_placed (n : Nat) : (item : Item) → (item.placed n).Pairwise (·.1 < ·.1)
  | .function _ => List.pairwise_singleton _ _
  | .type _ => List.pairwise_singleton _ _
  | .conditional items => by
    refine List.pairwise_map.mpr ((pairwise_placedItems 0 items).imp fun lt => ?_)
    exact List.cons_lt_cons_iff.mpr (.inr ⟨rfl, lt⟩)

/-- The declarations of items stand in the order of their paths. -/
theorem pairwise_placedItems (n : Nat) : (items : List Item) →
    (placedItems n items).Pairwise (·.1 < ·.1)
  | [] => .nil
  | item :: rest => by
    refine List.pairwise_append.mpr ⟨item.pairwise_placed n, pairwise_placedItems (n + 1) rest, ?_⟩
    intro x hx y hy
    obtain ⟨path, eq⟩ := head_of_mem_placed hx
    obtain ⟨k, path', le, eq'⟩ := head_of_mem_placedItems hy
    rw [eq, eq']
    exact List.cons_lt_cons_iff.mpr (.inl le)

end

end Placed

/-! ## Places in a program -/

/-- The unit of a place: its number comes in front of the path in its items. -/
def unitAt? (units : List SourceUnit) (place : List Nat) : Option SourceUnit :=
  place.head?.bind (units[·]?)

/-- A declaration stands in a program at a place. -/
def DeclaredAt (units : List SourceUnit) (place : List Nat) (declared : Declared) : Prop :=
  ∃ unit, unitAt? units place = some unit ∧ StandsIn unit.items place.tail declared

namespace Declared

variable (placement : Placement) (declared : Declared)

/-- The declaration introduces a type. -/
def isType : Declared → Bool
  | .function _ => false
  | .type _ => true

def name : Declared → QualifiedName
  | .function routine => QualifiedName.ofString routine.name
  | .type declaration => declaration.name

@[simp] theorem isType_entryAt : (declared.entryAt placement).isType = declared.isType := by
  cases declared <;> rfl

@[simp] theorem name_entryAt : (declared.entryAt placement).name = declared.name := by
  cases declared <;> rfl

end Declared

/-- The declaration is what stands in a program at a place. It is conditional if there are groups
around it. -/
inductive Declaration.At (base : Option String) (units : List SourceUnit) :
    List Nat → Declaration → Prop
  | intro {index unit path declared item} : units[index]? = some unit →
      StandsIn unit.items path declared →
      At base units (index :: path) (declared.entryAt
        ⟨normalizePath base unit.path, decide (1 < path.length), ⟨index, item⟩⟩)

/-- The declarations of a unit with their places. -/
def placedOf (base : Option String) (index : Nat) (unit : SourceUnit) :
    List (List Nat × Declaration) :=
  (placedItems 0 unit.items).zipIdx.map fun ((path, declared), item) =>
    (index :: path, declared.entryAt
      ⟨normalizePath base unit.path, decide (1 < path.length), ⟨index, item⟩⟩)

/-- The declarations of a program with their places. -/
def placedIn (base : Option String) (units : List SourceUnit) : List (List Nat × Declaration) :=
  units.zipIdx.flatMap fun (unit, index) => placedOf base index unit

section Places

variable {base : Option String} {units : List SourceUnit} {index : Nat} {unit : SourceUnit}
  {place : List Nat} {declared : Declared} {declaration : Declaration}
  {x y : List Nat × Declaration}

theorem map_placedOf (base : Option String) (index : Nat) (unit : SourceUnit) :
    (placedOf base index unit).map (·.2) = (FileEntry.ofUnit base index unit).declarations := by
  simp only [placedOf, FileEntry.ofUnit, declaredItems_eq false 0, List.zipIdx_map, List.map_map]
  rfl

theorem map_placedIn (base : Option String) (units : List SourceUnit) :
    (placedIn base units).map (·.2) = declaredIn (Table.filesOf base units) := by
  rw [placedIn, List.map_flatMap, declaredIn, Table.filesOf, List.flatMap_map]
  exact congrArg (List.flatMap · _) (funext fun entry => map_placedOf base entry.2 entry.1)

theorem head_of_mem_placedOf (h : x ∈ placedOf base index unit) : ∃ path, x.1 = index :: path := by
  obtain ⟨⟨⟨path, declared⟩, item⟩, -, rfl⟩ := List.mem_map.mp h
  exact ⟨path, rfl⟩

/-- The declarations of a program stand in the order of their places. -/
theorem pairwise_placedIn (base : Option String) (units : List SourceUnit) :
    (placedIn base units).Pairwise (·.1 < ·.1) := by
  rw [placedIn, List.pairwise_flatMap]
  constructor
  · rintro ⟨unit, index⟩ -
    have pairs : ((placedItems 0 unit.items).zipIdx.map (·.1)).Pairwise (·.1 < ·.1) := by
      rw [List.zipIdx_map_fst]
      exact pairwise_placedItems 0 unit.items
    rw [List.pairwise_map] at pairs
    exact List.pairwise_map.mpr (pairs.imp fun lt => List.cons_lt_cons_iff.mpr (.inr ⟨rfl, lt⟩))
  · rw [List.pairwise_iff_getElem]
    intro i j hi hj lt x hx y hy
    simp only [List.getElem_zipIdx, Nat.zero_add] at hx hy
    obtain ⟨path, eq⟩ := head_of_mem_placedOf hx
    obtain ⟨path', eq'⟩ := head_of_mem_placedOf hy
    rw [eq, eq']
    exact List.cons_lt_cons_iff.mpr (.inl lt)

theorem at_of_mem_placedIn (h : x ∈ placedIn base units) : x.2.At base units x.1 := by
  obtain ⟨⟨unit, index⟩, unit_mem, mem⟩ := List.mem_flatMap.mp h
  obtain ⟨⟨⟨path, declared⟩, item⟩, item_mem, rfl⟩ := List.mem_map.mp mem
  refine .intro (List.mem_zipIdx_iff_getElem?.mp unit_mem) ?_
  exact standsIn_of_mem_placedItems unit.items (fun _ => by simp)
    (List.fst_mem_of_mem_zipIdx item_mem)

/-- **Every declaration of a program** is among those with their places. -/
theorem exists_mem_placedIn (h : DeclaredAt units place declared) :
    ∃ declaration, (place, declaration) ∈ placedIn base units ∧
      declaration.isType = declared.isType ∧ declaration.name = declared.name := by
  obtain ⟨unit, found, stands⟩ := h
  cases place with
  | nil => cases found
  | cons index path =>
    obtain ⟨item, lt, mem⟩ := List.getElem_of_mem stands.mem
    refine ⟨_, List.mem_flatMap.mpr ⟨(unit, index), List.mem_zipIdx_iff_getElem?.mpr found,
      List.mem_map.mpr ⟨((path, declared), item), List.mem_zipIdx_iff_getElem?.mpr ?_, rfl⟩⟩,
      declared.isType_entryAt _, declared.name_entryAt _⟩
    exact mem ▸ List.getElem?_eq_getElem lt

/-- Declarations stand in the order of their places. -/
theorem precedes_iff (hx : x ∈ placedIn base units) (hy : y ∈ placedIn base units) :
    x.2.Precedes y.2 ↔ x.1 < y.1 := by
  have sorted : (placedIn base units).Pairwise fun x y => x.2.Precedes y.2 := by
    have := pairwise_declaredIn base units
    rwa [← map_placedIn, List.pairwise_map] at this
  have ordered : (placedIn base units).Pairwise fun x y => x.2.Precedes y.2 ∧ x.1 < y.1 :=
    List.pairwise_and_iff.mpr ⟨sorted, pairwise_placedIn base units⟩
  have asymm {a b : Declaration} (h : a.Precedes b) (h' : b.Precedes a) : False := by
    have := Origin.not_upTo_iff.mp h
    have := Origin.not_upTo_iff.mp h'
    omega
  obtain ⟨i, hi, rfl⟩ := List.getElem_of_mem hx
  obtain ⟨j, hj, rfl⟩ := List.getElem_of_mem hy
  have behind := List.pairwise_iff_getElem.mp ordered
  obtain lt | rfl | gt := Nat.lt_trichotomy i j
  · exact iff_of_true (behind i j hi hj lt).1 (behind i j hi hj lt).2
  · exact iff_of_false (fun h => asymm h h) (List.lt_irrefl _)
  · obtain ⟨precedes, lt⟩ := behind j i hj hi gt
    exact iff_of_false (fun h => asymm h precedes) fun h => List.lt_asymm h lt

/-- A place has one declaration. -/
theorem eq_of_place_eq (hx : x ∈ placedIn base units) (hy : y ∈ placedIn base units)
    (same : x.1 = y.1) : x = y := by
  have nodup : ((placedIn base units).map (·.1)).Nodup := by
    refine List.pairwise_map.mpr ((pairwise_placedIn base units).imp fun lt same => ?_)
    rw [same] at lt
    exact List.lt_irrefl _ lt
  exact List.inj_on_of_nodup_map nodup hx hy same

/-- What a declaration knows of its place. -/
theorem Declaration.At.spec (h : declaration.At base units place) :
    ∃ unit declared, unitAt? units place = some unit ∧
      units[declaration.placement.origin.unit]? = some unit ∧
      StandsIn unit.items place.tail declared ∧ declaration.isType = declared.isType ∧
      declaration.name = declared.name ∧
      (declaration.placement.conditional = false ↔ place.length = 2) := by
  obtain ⟨found, stands⟩ := h
  rename_i index unit path declared item
  refine ⟨unit, declared, found, by simpa using found, stands, declared.isType_entryAt _,
    declared.name_entryAt _, ?_⟩
  cases stands <;> simp

end Places

/-! ## Repetitions -/

/-- Two unconditional declarations of one kind have one name. -/
def Repeats (units : List SourceUnit) (first later : List Nat) : Prop :=
  first < later ∧ first.length = 2 ∧ later.length = 2 ∧
    ∃ a b, DeclaredAt units first a ∧ DeclaredAt units later b ∧ a.isType = b.isType ∧
      a.name.key = b.name.key

section Repetitions

variable {base : Option String} {units : List SourceUnit} {p q : List Nat}
  {first later : Declaration}

theorem repeats_of_mem (hp : (p, first) ∈ placedIn base units) (hq : (q, later) ∈ placedIn base units)
    (precedes : first.Precedes later) (conflicts : first.conflictsWith later) :
    Repeats units p q := by
  obtain ⟨unit, a, found, -, stands, kind, name, flat⟩ := (at_of_mem_placedIn hp).spec
  obtain ⟨unit', b, found', -, stands', kind', name', flat'⟩ := (at_of_mem_placedIn hq).spec
  simp only [Declaration.conflictsWith, Bool.and_eq_true, Bool.not_eq_true', beq_iff_eq] at conflicts
  obtain ⟨⟨⟨plain, plain'⟩, kinds⟩, names⟩ := conflicts
  exact ⟨(precedes_iff hp hq).mp precedes, flat.mp plain, flat'.mp plain', a, b,
    ⟨unit, found, stands⟩, ⟨unit', found', stands'⟩, kind ▸ kind' ▸ kinds, name ▸ name' ▸ names⟩

theorem exists_of_repeats (base : Option String) (h : Repeats units p q) :
    ∃ first later, (p, first) ∈ placedIn base units ∧ (q, later) ∈ placedIn base units ∧
      first.Precedes later ∧ first.conflictsWith later := by
  obtain ⟨lt, two, two', a, b, declared, declared', kinds, names⟩ := h
  obtain ⟨first, hp, kind, name⟩ := exists_mem_placedIn declared
  obtain ⟨later, hq, kind', name'⟩ := exists_mem_placedIn declared'
  obtain ⟨-, -, -, -, -, -, -, flat⟩ := (at_of_mem_placedIn hp).spec
  obtain ⟨-, -, -, -, -, -, -, flat'⟩ := (at_of_mem_placedIn hq).spec
  refine ⟨first, later, hp, hq, (precedes_iff hp hq).mpr lt, ?_⟩
  simp [Declaration.conflictsWith, flat.mpr two, flat'.mpr two', kind, kind', kinds, name, name',
    names]

theorem mem_placedIn_of_mem (h : first ∈ declaredIn (Table.filesOf base units)) :
    ∃ place, (place, first) ∈ placedIn base units := by
  rw [← map_placedIn] at h
  obtain ⟨⟨place, _⟩, mem, rfl⟩ := List.mem_map.mp h
  exact ⟨place, mem⟩

theorem mem_of_mem_placedIn (h : (p, first) ∈ placedIn base units) :
    first ∈ declaredIn (Table.filesOf base units) := by
  rw [← map_placedIn]
  exact List.mem_map_of_mem h

end Repetitions

/-! ## Enumerations -/

/-- A list has the declarations of a kind, each once, in the order of their places. -/
def Enumerates (base : Option String) (units : List SourceUnit) (isType : Bool)
    (all : List Declaration) : Prop :=
  ∃ placed : List (List Nat × Declaration), placed.map (·.2) = all ∧
    placed.Pairwise (·.1 < ·.1) ∧ (∀ x ∈ placed, x.2.At base units x.1 ∧ x.2.isType = isType) ∧
    ∀ place declared, DeclaredAt units place declared → declared.isType = isType →
      place ∈ placed.map (·.1)

theorem enumerates_filter (base : Option String) (units : List SourceUnit) (isType : Bool) :
    Enumerates base units isType
      ((declaredIn (Table.filesOf base units)).filter (·.isType == isType)) := by
  refine ⟨(placedIn base units).filter (·.2.isType == isType), ?_,
    (pairwise_placedIn base units).filter _, fun x mem => ?_, fun place declared there kind => ?_⟩
  · rw [← map_placedIn, List.filter_map]
    rfl
  · obtain ⟨mem, kind⟩ := List.mem_filter.mp mem
    exact ⟨at_of_mem_placedIn mem, by simpa using kind⟩
  · have ⟨declaration, mem, kind', _⟩ :=
      (exists_mem_placedIn there : ∃ d, (place, d) ∈ placedIn base units ∧ _)
    exact List.mem_map_of_mem (List.mem_filter.mpr ⟨mem, by simp [kind', kind]⟩)

theorem map_function_filterMap :
    (all.filterMap (·.function?)).map .function = all.filter (·.isType == false) := by
  rw [List.map_filterMap, ← List.filterMap_eq_filter]
  congr 1
  funext declaration
  cases declaration <;> rfl

theorem map_type_filterMap :
    (all.filterMap (·.type?)).map .type = all.filter (·.isType == true) := by
  rw [List.map_filterMap, ← List.filterMap_eq_filter]
  congr 1
  funext declaration
  cases declaration <;> rfl

/-! ## Look-ups -/

section Lookup

variable {all : List Declaration} {groups : Groups} {isType : Bool} {name : String}
  {declaration : Declaration}

/-- What the map of the settled declarations holds for a name: the earliest declaration. -/
def Groups.settled? (groups : Groups) (name : String) : Option Declaration :=
  (groups.find? (·.1 == nameKey name)).bind fun group =>
    (group.2.mergeSort fun a b => a.placement.origin.upTo b.placement.origin).head?

theorem Groups.Gathers.settled?_eq (h : groups.Gathers (unconditional isType all))
    (sorted : all.Pairwise Declaration.Precedes) (name : String) :
    groups.settled? name = all.find? (·.bears isType (nameKey name)) := by
  rw [← List.head?_filter, ← filter_unconditional, settled?]
  cases found : groups.find? (·.1 == nameKey name) with
  | none =>
    rw [List.find?_eq_none] at found
    have missing : (unconditional isType all).filter (·.name.key == nameKey name) = [] := by
      refine List.filter_eq_nil_iff.mpr fun declaration mem same => ?_
      obtain ⟨group, group_mem, key⟩ := h.exists_group mem
      exact found group group_mem (key ▸ same)
    rw [missing]
    rfl
  | some group =>
    have key : group.1 = nameKey name := by simpa using List.find?_some found
    have members := h.group (List.mem_of_find?_eq_some found)
    rw [key] at members
    rw [Option.bind_some, mergeSort_declarations members ((sorted.filter _).filter _)]

/-- If nothing is declared twice, a name has the declaration that bears it. -/
theorem find?_bears_iff (sorted : all.Pairwise Declaration.Precedes)
    (unique : ∀ first later, ¬ Redeclares all first later) :
    all.find? (·.bears isType (nameKey name)) = some declaration ↔
      declaration ∈ all ∧ declaration.bears isType (nameKey name) := by
  refine ⟨fun found => ⟨List.mem_of_find?_eq_some found, ?_⟩, fun ⟨mem, bears⟩ => ?_⟩
  · exact List.find?_some found
  obtain ⟨first, found⟩ := Option.isSome_iff_exists.mp (List.find?_isSome.mpr ⟨_, mem, bears⟩)
  rw [found, Option.some.injEq]
  have first_mem := List.mem_of_find?_eq_some found
  have bears' := List.find?_some found
  by_contra apart
  have conflicts := Declaration.conflictsWith_of_bears bears' bears
  have conflicts' := Declaration.conflictsWith_of_bears bears bears'
  -- One of the two declarations stands in front of the other one.
  cases le : declaration.placement.origin.upTo first.placement.origin with
  | false =>
    obtain ⟨_, redeclares⟩ := exists_redeclares sorted first_mem mem conflicts le
    exact unique _ _ redeclares
  | true =>
    cases ge : first.placement.origin.upTo declaration.placement.origin with
    | false =>
      obtain ⟨_, redeclares⟩ := exists_redeclares sorted mem first_mem conflicts' ge
      exact unique _ _ redeclares
    | true => exact apart (eq_of_origin_eq sorted first_mem mem (Origin.eq_of_upTo ge le))

end Lookup

namespace Table

variable {table : Table} {base : Option String} {units : List SourceUnit}
  {visits : List (Nat × SourceUnit)} {population : Population}

/-- All declarations in the order of the files, conditional ones included. -/
def declarations (table : Table) : List Declaration := table.files.flatMap (·.declarations)

theorem functions_eq (table : Table) :
    table.functions = table.declarations.filterMap (·.function?) := by
  rw [declarations, List.filterMap_flatMap]
  rfl

theorem types_eq (table : Table) : table.types = table.declarations.filterMap (·.type?) := by
  rw [declarations, List.filterMap_flatMap]
  rfl

theorem declarations_mk (files : List FileEntry) (base : Option String) :
    declarations ⟨files, base⟩ = declaredIn files := rfl

/-- A function is found among what bears its name. -/
theorem function?_eq (table : Table) (name : String) :
    table.function? name =
      (table.declarations.find? (·.bears false (nameKey name))).bind (·.function?) := by
  rw [function?, functions_eq, List.find?_filterMap]
  congr 2
  funext declaration
  cases declaration <;> simp [Declaration.bears, Declaration.function?, Declaration.placement,
    Declaration.isType, Declaration.name]

/-- A type is found among what bears its name. -/
theorem type?_eq (table : Table) (name : String) :
    table.type? name =
      (table.declarations.find? (·.bears true (nameKey name))).bind (·.type?) := by
  rw [type?, types_eq, List.find?_filterMap]
  congr 2
  funext declaration
  cases declaration <;> simp [Declaration.bears, Declaration.type?, Declaration.placement,
    Declaration.isType, Declaration.name]

/-- The units with their numbers. -/
def numbered (units : List SourceUnit) : List (Nat × SourceUnit) :=
  units.zipIdx.map fun (unit, index) => (index, unit)

/-- The units have been visited, in whatever order. -/
theorem holds_of_visits (visited : visits.Perm (numbered units))
    (shuffled : population.Shuffles (.ofVisits base visits)) :
    population.Holds (filesOf base units) := by
  refine (Population.holds_ofVisits base visits).perm shuffled ?_
  have files : (numbered units).map (fun visited => FileEntry.ofUnit base visited.1 visited.2) =
      filesOf base units := by
    rw [numbered, List.map_map]
    rfl
  exact files ▸ visited.map _

/-- The table of a program, told by the redeclarations. -/
theorem ofUnits_eq (base : Option String) (units : List SourceUnit) :
    (ofUnits base units = .ok ⟨filesOf base units, base⟩ ∧
      ∀ first later, ¬ Redeclares (declaredIn (filesOf base units)) first later) ∨
    ∃ first later, Redeclares (declaredIn (filesOf base units)) first later ∧
      (∀ first' later', Redeclares (declaredIn (filesOf base units)) first' later' →
        later.placement.origin.upTo later'.placement.origin) ∧
      ofUnits base units = .error (redeclarationOf (filesOf base units) first later) := by
  have holds : (Population.ofVisits base (numbered units)).Holds (filesOf base units) :=
    holds_of_visits (.refl _) ⟨.refl _, .refl _, .refl _⟩
  change (Except.map _ (Population.ofVisits base (numbered units)).freeze = _ ∧ _) ∨
    ∃ first later, _ ∧ _ ∧ Except.map _ (Population.ofVisits base (numbered units)).freeze = _
  obtain ⟨frozen, unique⟩ | ⟨first, later, redeclares, least, frozen⟩ := holds.freeze_eq
  · exact .inl ⟨by rw [frozen]; rfl, unique⟩
  · exact .inr ⟨first, later, redeclares, least, by rw [frozen]; rfl⟩

/-- What population has to come to, for the units of a program. -/
structure Populated (base : Option String) (units : List SourceUnit)
    (result : Except Redeclaration Table) : Prop where
  /-- It fails where two unconditional declarations of one kind have one name. -/
  fails_iff : (∃ error, result = .error error) ↔ ∃ first later, Repeats units first later
  /-- The error is about the first declaration that repeats an earlier one, and names the earliest
  one of its name. -/
  error : ∀ {error}, result = .error error → ∃ first later, Repeats units first later ∧
    (∀ first' later', Repeats units first' later' → ¬ later' < later) ∧
    (∀ first', Repeats units first' later → ¬ first' < first) ∧
    ∃ unit unit' declared, unitAt? units first = some unit ∧ unitAt? units later = some unit' ∧
      DeclaredAt units later declared ∧
      error = ⟨declared.isType, declared.name.text, unit.path, unit'.path⟩
  /-- All declarations are enumerated once, in the order of their places. -/
  functions : ∀ {table}, result = .ok table →
    Enumerates base units false (table.functions.map .function)
  types : ∀ {table}, result = .ok table → Enumerates base units true (table.types.map .type)
  /-- A name finds its unconditional declaration. -/
  function?_iff : ∀ {table}, result = .ok table → ∀ {name entry},
    table.function? name = some entry ↔ entry ∈ table.functions ∧
      entry.placement.conditional = false ∧ entry.name.key = nameKey name
  type?_iff : ∀ {table}, result = .ok table → ∀ {name entry},
    table.type? name = some entry ↔ entry ∈ table.types ∧
      entry.placement.conditional = false ∧ entry.name.key = nameKey name

/-- The first redeclaration is what repeats a name at the first place, and the error names it. -/
theorem exists_repeats_of_redeclares {first later : Declaration}
    (redeclares : Redeclares (declaredIn (filesOf base units)) first later)
    (least : ∀ first' later', Redeclares (declaredIn (filesOf base units)) first' later' →
      later.placement.origin.upTo later'.placement.origin) :
    ∃ p q, Repeats units p q ∧ (∀ p' q', Repeats units p' q' → ¬ q' < q) ∧
      (∀ p', Repeats units p' q → ¬ p' < p) ∧
      ∃ unit unit' declared, unitAt? units p = some unit ∧ unitAt? units q = some unit' ∧
        DeclaredAt units q declared ∧ redeclarationOf (filesOf base units) first later =
          ⟨declared.isType, declared.name.text, unit.path, unit'.path⟩ := by
  have sorted := pairwise_declaredIn base units
  obtain ⟨p, hp⟩ := mem_placedIn_of_mem redeclares.first_mem
  obtain ⟨q, hq⟩ := mem_placedIn_of_mem redeclares.later_mem
  refine ⟨p, q, repeats_of_mem hp hq redeclares.precedes redeclares.conflicts,
    fun p' q' repeats => ?_, fun p' repeats => ?_, ?_⟩
  · obtain ⟨a, b, ha, hb, precedes, conflicts⟩ := exists_of_repeats base repeats
    obtain ⟨_, redeclares'⟩ := exists_redeclares sorted (mem_of_mem_placedIn ha)
      (mem_of_mem_placedIn hb) conflicts precedes
    rw [← precedes_iff hb hq, Declaration.Precedes, least _ _ redeclares']
    exact Bool.noConfusion
  · obtain ⟨a, b, ha, hb, -, conflicts⟩ := exists_of_repeats base repeats
    obtain ⟨-, rfl⟩ := Prod.mk.inj (eq_of_place_eq hb hq rfl)
    rw [← precedes_iff ha hp, Declaration.Precedes,
      redeclares.earliest a (mem_of_mem_placedIn ha) conflicts]
    exact Bool.noConfusion
  · obtain ⟨unit, -, found, source, -⟩ := (at_of_mem_placedIn hp).spec
    obtain ⟨unit', declared, found', source', stands, kind, name, -⟩ := (at_of_mem_placedIn hq).spec
    refine ⟨unit, unit', declared, found, found', ⟨unit', found', stands⟩, ?_⟩
    simp only [redeclarationOf, sourcePathAt_filesOf, source, source', kind, name]
    rfl

/-- **Population is exact.** -/
theorem populated_ofUnits (base : Option String) (units : List SourceUnit) :
    Populated base units (ofUnits base units) := by
  have sorted := pairwise_declaredIn base units
  obtain ⟨table, unique⟩ | ⟨first, later, redeclares, least, error⟩ := ofUnits_eq base units
  · rw [table]
    refine ⟨⟨nofun, ?_⟩, nofun, ?_, ?_, ?_, ?_⟩
    · rintro ⟨p, q, repeats⟩
      obtain ⟨a, b, ha, hb, precedes, conflicts⟩ := exists_of_repeats base repeats
      obtain ⟨first, redeclares⟩ := exists_redeclares sorted (mem_of_mem_placedIn ha)
        (mem_of_mem_placedIn hb) conflicts precedes
      exact (unique _ _ redeclares).elim
    · rintro _ ⟨⟩
      rw [functions_eq, declarations_mk, map_function_filterMap]
      exact enumerates_filter base units false
    · rintro _ ⟨⟩
      rw [types_eq, declarations_mk, map_type_filterMap]
      exact enumerates_filter base units true
    · rintro _ ⟨⟩ name entry
      rw [function?_eq, Option.bind_eq_some_iff]
      simp only [declarations_mk, find?_bears_iff sorted unique, Declaration.function?_eq_some_iff,
        functions_eq, List.mem_filterMap]
      simp [Declaration.bears_function_iff]
    · rintro _ ⟨⟩ name entry
      rw [type?_eq, Option.bind_eq_some_iff]
      simp only [declarations_mk, find?_bears_iff sorted unique, Declaration.type?_eq_some_iff,
        types_eq, List.mem_filterMap]
      simp [Declaration.bears_type_iff]
  · rw [error]
    obtain ⟨p, q, repeats, last, earliest, named⟩ := exists_repeats_of_redeclares redeclares least
    refine ⟨⟨fun _ => ⟨p, q, repeats⟩, fun _ => ⟨_, rfl⟩⟩, ?_, nofun, nofun, nofun, nofun⟩
    rintro _ ⟨⟩
    exact ⟨p, q, repeats, last, earliest, named⟩

/-- **Population does not depend on the order**, neither of the visits nor of its maps. -/
theorem ofUnits_of_visits (visited : visits.Perm (numbered units))
    (shuffled : population.Shuffles (.ofVisits base visits)) :
    population.freeze.map (fun files => (⟨files, base⟩ : Table)) = ofUnits base units := by
  have sorted := pairwise_declaredIn base units
  obtain ⟨frozen, unique⟩ | ⟨first, later, redeclares, least, frozen⟩ :=
    (holds_of_visits visited shuffled).freeze_eq
  all_goals
    obtain ⟨table, unique'⟩ | ⟨first', later', redeclares', least', error⟩ := ofUnits_eq base units
  · rw [frozen, table]
    rfl
  · exact (unique _ _ redeclares').elim
  · exact (unique' _ _ redeclares).elim
  · have same := eq_of_origin_eq sorted redeclares.later_mem redeclares'.later_mem
      (Origin.eq_of_upTo (least _ _ redeclares') (least' _ _ redeclares))
    subst same
    have same := eq_of_origin_eq sorted redeclares.first_mem redeclares'.first_mem
      (Origin.eq_of_upTo (redeclares.earliest _ redeclares'.first_mem redeclares'.conflicts)
        (redeclares'.earliest _ redeclares.first_mem redeclares.conflicts))
    subst same
    rw [frozen, error]
    rfl

/-- Its maps hold what the table finds. -/
theorem settled?_eq_of_visits (visited : visits.Perm (numbered units))
    (shuffled : population.Shuffles (.ofVisits base visits)) (h : ofUnits base units = .ok table)
    (name : String) :
    (population.functions.settled? name).bind (·.function?) = table.function? name ∧
      (population.types.settled? name).bind (·.type?) = table.type? name := by
  have holds := holds_of_visits visited shuffled
  have sorted := pairwise_declaredIn base units
  obtain ⟨ok, -⟩ | ⟨_, _, _, _, error⟩ := ofUnits_eq base units
  · rw [ok, Except.ok.injEq] at h
    subst h
    rw [holds.gathered.functions.settled?_eq sorted, holds.gathered.types.settled?_eq sorted,
      function?_eq, type?_eq]
    exact ⟨rfl, rfl⟩
  · rw [error] at h
    cases h

/-- **Population is exact and independent of the order**, of the visits and of its maps. -/
theorem populated_of_visits (visited : visits.Perm (numbered units))
    (shuffled : population.Shuffles (.ofVisits base visits)) :
    Populated base units (population.freeze.map fun files => ⟨files, base⟩) ∧
      population.freeze.map (fun files => (⟨files, base⟩ : Table)) = ofUnits base units ∧
      ∀ table, ofUnits base units = .ok table → ∀ name,
        (population.functions.settled? name).bind (·.function?) = table.function? name ∧
        (population.types.settled? name).bind (·.type?) = table.type? name := by
  have same := ofUnits_of_visits visited shuffled
  exact ⟨same ▸ populated_ofUnits base units, same,
    fun _ => settled?_eq_of_visits visited shuffled⟩

/-- Two files that declare a function of one name, in two spellings. -/
def repeatingUnits : List SourceUnit := [
  ⟨"a.php", [.function ⟨"f", [], true, none, false, ⟨#[], #[]⟩⟩,
    .conditional [.function ⟨"g", [], true, none, false, ⟨#[], #[]⟩⟩]]⟩,
  ⟨"b.php", [.function ⟨"\\F", [], true, none, false, ⟨#[], #[]⟩⟩]⟩]

/-- The second file may be visited first, and the maps may be read backwards. -/
theorem populated_of_visits_backwards :
    let gathered := Population.ofVisits none (numbered repeatingUnits).reverse
    let population : Population :=
      ⟨gathered.functions.reverse, gathered.types.reverse, gathered.files.reverse⟩
    (numbered repeatingUnits).reverse.Perm (numbered repeatingUnits) ∧
    population.Shuffles gathered ∧
    Populated none repeatingUnits (population.freeze.map fun files => ⟨files, none⟩) := by
  intro gathered population
  have visited := List.reverse_perm (numbered repeatingUnits)
  have shuffled : population.Shuffles gathered :=
    ⟨List.reverse_perm _, List.reverse_perm _, List.reverse_perm _⟩
  exact ⟨visited, shuffled, (populated_of_visits visited shuffled).1⟩

/-- The table of files in their order, if nothing is declared twice. -/
def ofFiles? (base : Option String) (files : List FileEntry) : Option Table :=
  if (declaredIn files).Pairwise fun a b => a.conflictsWith b = false then some ⟨files, base⟩
  else none

/-- A table holds the files in the order of the units, and nothing is declared twice. -/
theorem ofUnits_eq_ok_iff {table : Table} :
    ofUnits base units = .ok table ↔ ofFiles? base (filesOf base units) = some table := by
  have sorted := pairwise_declaredIn base units
  unfold ofFiles?
  obtain ⟨ok, unique⟩ | ⟨first, later, redeclares, -, error⟩ := ofUnits_eq base units
  · have apart : (declaredIn (filesOf base units)).Pairwise fun a b =>
        a.conflictsWith b = false := by
      refine sorted.imp_of_mem fun {a b} ha hb precedes => ?_
      cases conflicts : a.conflictsWith b with
      | false => rfl
      | true =>
        obtain ⟨first, redeclares⟩ := exists_redeclares sorted ha hb conflicts precedes
        exact (unique _ _ redeclares).elim
    rw [ok, if_pos apart, Except.ok.injEq, Option.some.injEq]
  · have conflict : ¬ (declaredIn (filesOf base units)).Pairwise fun a b =>
        a.conflictsWith b = false := by
      intro apart
      have ne : first ≠ later := by
        rintro rfl
        have := Origin.not_upTo_iff.mp redeclares.precedes
        omega
      have := apart.forall redeclares.first_mem redeclares.later_mem ne
      rw [redeclares.conflicts] at this
      cases this
    rw [error, if_neg conflict]
    exact ⟨nofun, nofun⟩

end Table

end StackScript
