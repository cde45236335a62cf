import Mathlib.Data.List.Sort
import Mathlib.Tactic.Common
import StackScript.Declaration.Table

/-!
# What a population gathers

Declarations are ordered by their units first and then by their numbers, and no two of a program
stand at one place. So whoever sorts them by their places gets them as they stand in the units.

What is gathered depends on the order in which the units are visited, and on the order in which the
maps give their entries back. What it comes to does not: the declarations of one name are sorted by
their places, and the earliest of all redeclarations is reported.

## Main definitions

* `Declaration.Precedes`: one declaration stands before another
* `Declaration.bears`, `Declaration.conflictsWith`: names of unconditional declarations
* `Table.filesOf`, `declaredIn`: the files of a program, and their declarations
* `Groups.Gathers`, `Population.Holds`: what has been gathered
* `Redeclares`: a declaration repeats an earlier one
* `Population.Shuffles`: the maps are read in another order

## Main results

* `pairwise_declaredIn`: the declarations of a program stand in the order of their places
* `mergeSort_declarations`, `mergeSort_files`: what sorting comes to
* `Population.holds_ofVisits`: what has been gathered after some visits
* `Population.Holds.freeze_eq`: what it comes to
-/

namespace StackScript

/-! ## Places -/

namespace Origin

variable {a b c : Origin}

theorem upTo_iff : a.upTo b ↔ a.unit < b.unit ∨ a.unit = b.unit ∧ a.item ≤ b.item := by
  simp [upTo]

theorem not_upTo_iff : a.upTo b = false ↔ b.unit < a.unit ∨ b.unit = a.unit ∧ b.item < a.item := by
  rw [← Bool.not_eq_true, upTo_iff]
  omega

theorem upTo_total (a b : Origin) : a.upTo b || b.upTo a := by
  rw [Bool.or_eq_true, upTo_iff, upTo_iff]
  omega

theorem upTo_trans (h : a.upTo b) (h' : b.upTo c) : a.upTo c := by
  rw [upTo_iff] at *
  omega

theorem eq_of_upTo (h : a.upTo b) (h' : b.upTo a) : a = b := by
  rw [upTo_iff] at *
  cases a
  cases b
  simp only [mk.injEq] at *
  omega

end Origin

namespace Declaration

/-- The declaration is unconditional, of a kind, and has a name of that key. -/
def bears (isType : Bool) (key : String) (declaration : Declaration) : Bool :=
  !declaration.placement.conditional && declaration.isType == isType && declaration.name.key == key

/-- The two declarations introduce the same name, both unconditionally. -/
def conflictsWith (a b : Declaration) : Bool :=
  !a.placement.conditional && !b.placement.conditional && a.isType == b.isType &&
    a.name.key == b.name.key

variable {a b : Declaration} {entry : FunctionEntry} {key : String}

theorem conflictsWith_iff : a.conflictsWith b ↔
    a.bears b.isType b.name.key ∧ b.bears b.isType b.name.key := by
  simp only [conflictsWith, bears, Bool.and_eq_true, beq_self_eq_true]
  tauto

instance : Std.Symm fun a b : Declaration => a.conflictsWith b = false where
  symm a b h := by
    unfold conflictsWith at *
    grind

theorem conflictsWith_of_bears {isType : Bool} (ha : a.bears isType key) (hb : b.bears isType key) :
    a.conflictsWith b := by
  simp only [conflictsWith, bears, Bool.and_eq_true, beq_iff_eq] at *
  grind

theorem function?_eq_some_iff : a.function? = some entry ↔ a = .function entry := by
  cases a <;> simp [function?]

theorem type?_eq_some_iff {entry : TypeEntry} : a.type? = some entry ↔ a = .type entry := by
  cases a <;> simp [type?]

theorem bears_function_iff :
    (function entry).bears false key ↔
      entry.placement.conditional = false ∧ entry.name.key = key := by
  simp [bears, placement, isType, name]

theorem bears_type_iff {entry : TypeEntry} :
    (type entry).bears true key ↔ entry.placement.conditional = false ∧ entry.name.key = key := by
  simp [bears, placement, isType, name]

/-- One declaration stands before the other. -/
def Precedes (a b : Declaration) : Prop := b.placement.origin.upTo a.placement.origin = false

theorem Precedes.upTo (h : a.Precedes b) : a.placement.origin.upTo b.placement.origin := by
  have := Origin.not_upTo_iff.mp h
  rw [Origin.upTo_iff]
  omega

end Declaration

/-! ## Files -/

/-- The files of units, numbered in their order. -/
def Table.filesOf (base : Option String) (units : List SourceUnit) : List FileEntry :=
  units.zipIdx.map fun (unit, index) => FileEntry.ofUnit base index unit

/-- All declarations of some files in their order, conditional ones included. -/
def declaredIn (files : List FileEntry) : List Declaration := files.flatMap (·.declarations)

/-- The unconditional declarations of a kind. -/
def unconditional (isType : Bool) (all : List Declaration) : List Declaration :=
  all.filter fun declaration =>
    !declaration.placement.conditional && declaration.isType == isType

theorem filter_unconditional (isType : Bool) (key : String) (all : List Declaration) :
    (unconditional isType all).filter (·.name.key == key) = all.filter (·.bears isType key) := by
  rw [unconditional, List.filter_filter]
  congr 1
  funext declaration
  unfold Declaration.bears
  grind

@[simp]
theorem Declaration.placement_entryAt (placement : Placement) (declared : Declared) :
    (declared.entryAt placement).placement = placement := by
  cases declared <;> rfl

namespace FileEntry

variable {base : Option String} {index : Nat} {unit : SourceUnit} {declaration : Declaration}

theorem unit_of_mem (h : declaration ∈ (ofUnit base index unit).declarations) :
    declaration.placement.origin.unit = index := by
  obtain ⟨_, -, rfl⟩ := List.mem_map.mp h
  simp

/-- The declarations of a file stand in the order of their places. -/
theorem pairwise_declarations (base : Option String) (index : Nat) (unit : SourceUnit) :
    (ofUnit base index unit).declarations.Pairwise Declaration.Precedes := by
  simp only [ofUnit, List.pairwise_map, Declaration.Precedes, Declaration.placement_entryAt]
  rw [List.pairwise_iff_getElem]
  intro i j hi hj lt
  simp only [List.getElem_zipIdx, Origin.not_upTo_iff]
  exact .inr ⟨trivial, by omega⟩

end FileEntry

section Files

variable {base : Option String} {units : List SourceUnit} {visits : List (Nat × SourceUnit)}
    {declaration a b : Declaration} {all : List Declaration}

theorem Table.pairwise_filesOf (base : Option String) (units : List SourceUnit) :
    (filesOf base units).Pairwise fun a b => a.unit < b.unit := by
  rw [filesOf, List.pairwise_map, List.pairwise_iff_getElem]
  intro i j hi hj lt
  simpa [FileEntry.ofUnit] using lt

/-- The declarations of a program stand in the order of their places. -/
theorem pairwise_declaredIn (base : Option String) (units : List SourceUnit) :
    (declaredIn (Table.filesOf base units)).Pairwise Declaration.Precedes := by
  rw [declaredIn, List.pairwise_flatMap]
  refine ⟨fun file mem => ?_, ?_⟩
  · obtain ⟨⟨unit, index⟩, -, rfl⟩ := List.mem_map.mp mem
    exact FileEntry.pairwise_declarations base index unit
  · refine (Table.pairwise_filesOf base units).imp_of_mem ?_
    rintro file file' mem mem' lt a ha b hb
    obtain ⟨⟨unit, index⟩, -, rfl⟩ := List.mem_map.mp mem
    obtain ⟨⟨unit', index'⟩, -, rfl⟩ := List.mem_map.mp mem'
    have unit_a := FileEntry.unit_of_mem ha
    have unit_b := FileEntry.unit_of_mem hb
    have lt : index < index' := lt
    exact Origin.not_upTo_iff.mpr (.inl (by omega))

/-- A place has one declaration. -/
theorem eq_of_origin_eq (sorted : all.Pairwise Declaration.Precedes) (ha : a ∈ all) (hb : b ∈ all)
    (same : a.placement.origin = b.placement.origin) : a = b := by
  have nodup : (all.map (·.placement.origin)).Nodup := by
    refine List.pairwise_map.mpr (sorted.imp fun before same => ?_)
    have := Origin.not_upTo_iff.mp before
    rw [same] at this
    omega
  exact List.inj_on_of_nodup_map nodup ha hb same

/-- The path of a unit is found by the place of a declaration. -/
theorem sourcePathAt_filesOf (base : Option String) (units : List SourceUnit) (origin : Origin) :
    sourcePathAt (Table.filesOf base units) origin =
      (units[origin.unit]?.map (·.path)).getD "" := by
  unfold sourcePathAt Table.filesOf
  rw [List.getElem?_map, List.getElem?_zipIdx]
  cases units[origin.unit]? <;> rfl

/-- Declarations in any order are sorted by their places. -/
theorem mergeSort_declarations {members : List Declaration} (perm : members.Perm all)
    (sorted : all.Pairwise Declaration.Precedes) :
    members.mergeSort (fun a b => a.placement.origin.upTo b.placement.origin) = all := by
  have upTo := sorted.imp Declaration.Precedes.upTo
  have arranged : (members.mergeSort fun a b => a.placement.origin.upTo b.placement.origin).Pairwise
      fun a b => a.placement.origin.upTo b.placement.origin := by
    refine List.pairwise_mergeSort (fun a b c => ?_) (fun a b => ?_) _
    · exact Origin.upTo_trans
    · exact Origin.upTo_total _ _
  refine List.Perm.eq_of_pairwise (fun a b ha hb le le' => ?_) arranged upTo
    ((List.mergeSort_perm _ _).trans perm)
  rw [List.mem_mergeSort, perm.mem_iff] at ha
  exact eq_of_origin_eq sorted ha hb (Origin.eq_of_upTo le le')

/-- Files in any order are sorted by their units. -/
theorem mergeSort_files {files : List FileEntry} (perm : files.Perm (Table.filesOf base units)) :
    files.mergeSort (fun a b => a.unit ≤ b.unit) = Table.filesOf base units := by
  have sorted := Table.pairwise_filesOf base units
  have units_le := sorted.imp fun {a b} lt => decide_eq_true (Nat.le_of_lt lt)
  have nodup : ((Table.filesOf base units).map (·.unit)).Nodup :=
    List.pairwise_map.mpr (sorted.imp Nat.ne_of_lt)
  have arranged : (files.mergeSort fun a b => a.unit ≤ b.unit).Pairwise
      fun a b => decide (a.unit ≤ b.unit) := by
    refine List.pairwise_mergeSort (fun a b c => ?_) (fun a b => ?_) _
    · simp only [decide_eq_true_eq]
      omega
    · simp only [Bool.or_eq_true, decide_eq_true_eq]
      omega
  refine List.Perm.eq_of_pairwise (fun a b ha hb le le' => ?_) arranged units_le
    ((List.mergeSort_perm _ _).trans perm)
  rw [List.mem_mergeSort, perm.mem_iff] at ha
  rw [decide_eq_true_eq] at le le'
  exact List.inj_on_of_nodup_map nodup ha hb (Nat.le_antisymm le le')

end Files

/-! ## Groups -/

namespace Groups

/-- Declarations are in the groups of their keys, in any order. -/
structure Gathers (groups : Groups) (all : List Declaration) : Prop where
  members : (groups.flatMap (·.2)).Perm all
  keyed : ∀ group ∈ groups, ∀ declaration ∈ group.2, declaration.name.key = group.1
  distinct : groups.Pairwise fun a b => a.1 ≠ b.1

variable {groups groups' : Groups} {all all' : List Declaration} {declaration : Declaration}

theorem gathers_nil : Gathers [] [] := ⟨.nil, by simp, .nil⟩

theorem members_push (declaration : Declaration) (groups : Groups) :
    ((groups.push declaration).flatMap (·.2)).Perm (groups.flatMap (·.2) ++ [declaration]) := by
  induction groups with
  | nil => rfl
  | cons group rest ih =>
    unfold push
    split
    · simp only [List.flatMap_cons, List.append_assoc]
      exact .append_left _ List.perm_append_comm
    · simp only [List.flatMap_cons, List.append_assoc]
      exact .append_left _ ih

theorem of_mem_push {group : String × List Declaration} (h : group ∈ groups.push declaration) :
    group ∈ groups ∨ (group.1 = declaration.name.key ∧
      ∀ member ∈ group.2, member = declaration ∨ ∃ old ∈ groups, old.1 = group.1 ∧ member ∈ old.2) := by
  induction groups with
  | nil =>
    rw [push, List.mem_singleton] at h
    subst h
    exact .inr ⟨rfl, fun member mem => .inl (List.mem_singleton.mp mem)⟩
  | cons first rest ih =>
    unfold push at h
    split at h
    case isTrue same =>
      obtain rfl | mem := List.mem_cons.mp h
      · refine .inr ⟨same, fun member mem => ?_⟩
        obtain old | new := List.mem_append.mp mem
        · exact .inr ⟨first, List.mem_cons_self, rfl, old⟩
        · exact .inl (List.mem_singleton.mp new)
      · exact .inl (List.mem_cons_of_mem _ mem)
    case isFalse =>
      obtain rfl | mem := List.mem_cons.mp h
      · exact .inl List.mem_cons_self
      · obtain old | ⟨key, members⟩ := ih mem
        · exact .inl (List.mem_cons_of_mem _ old)
        · refine .inr ⟨key, fun member mem => (members member mem).imp_right ?_⟩
          rintro ⟨old, old_mem, facts⟩
          exact ⟨old, List.mem_cons_of_mem _ old_mem, facts⟩

theorem distinct_push (h : groups.Pairwise fun a b => a.1 ≠ b.1) :
    (groups.push declaration).Pairwise fun a b => a.1 ≠ b.1 := by
  induction groups with
  | nil => exact List.pairwise_singleton _ _
  | cons first rest ih =>
    obtain ⟨apart, h⟩ := List.pairwise_cons.mp h
    unfold push
    split
    · exact List.pairwise_cons.mpr ⟨apart, h⟩
    case isFalse ne =>
      refine List.pairwise_cons.mpr ⟨fun group mem => ?_, ih h⟩
      obtain mem | ⟨key, -⟩ := of_mem_push mem
      · exact apart group mem
      · rw [key]
        exact ne

theorem Gathers.push (h : groups.Gathers all) (declaration : Declaration) :
    (groups.push declaration).Gathers (all ++ [declaration]) where
  members := (members_push declaration groups).trans (h.members.append_right _)
  keyed group mem member member_mem := by
    obtain old | ⟨key, members⟩ := of_mem_push mem
    · exact h.keyed group old member member_mem
    · obtain rfl | ⟨old, old_mem, same, member_mem⟩ := members member member_mem
      · exact key.symm
      · exact (h.keyed old old_mem member member_mem).trans same
  distinct := distinct_push h.distinct

/-- Neither the order of the groups counts nor that of the declarations. -/
theorem Gathers.perm (h : groups.Gathers all) (perm : groups'.Perm groups) (perm' : all.Perm all') :
    groups'.Gathers all' where
  members := ((perm.flatMap_right _).trans h.members).trans perm'
  keyed group mem := h.keyed group (perm.mem_iff.mp mem)
  distinct := (perm.pairwise_iff fun apart => apart.symm).mpr h.distinct

/-- A group holds the declarations of its key. -/
theorem Gathers.group (h : groups.Gathers all) {group : String × List Declaration}
    (mem : group ∈ groups) : group.2.Perm (all.filter (·.name.key == group.1)) := by
  refine .trans ?_ (h.members.filter _)
  obtain ⟨earlier, later, rfl⟩ := List.append_of_mem mem
  have distinct := List.pairwise_append.mp h.distinct
  -- No other group contributes a declaration of the key.
  have others (groups : Groups) (subset : ∀ other ∈ groups, other ∈ earlier ++ group :: later)
      (apart : ∀ other ∈ groups, other.1 ≠ group.1) :
      (groups.flatMap (·.2)).filter (·.name.key == group.1) = [] := by
    refine List.filter_eq_nil_iff.mpr fun declaration declared => ?_
    obtain ⟨other, other_mem, declared⟩ := List.mem_flatMap.mp declared
    rw [h.keyed other (subset other other_mem) declaration declared, beq_iff_eq]
    exact apart other other_mem
  have whole : group.2.filter (·.name.key == group.1) = group.2 :=
    List.filter_eq_self.mpr fun declaration declared =>
      beq_iff_eq.mpr (h.keyed group mem declaration declared)
  rw [List.flatMap_append, List.flatMap_cons, List.filter_append, List.filter_append, whole,
    others earlier (fun _ mem => List.mem_append_left _ mem)
      fun other mem => distinct.2.2 other mem group List.mem_cons_self,
    others later (fun _ mem => List.mem_append_right _ (List.mem_cons_of_mem _ mem))
      fun other mem => ((List.pairwise_cons.mp distinct.2.1).1 other mem).symm]
  simp

/-- Every declaration is in a group. -/
theorem Gathers.exists_group (h : groups.Gathers all) (mem : declaration ∈ all) :
    ∃ group ∈ groups, group.1 = declaration.name.key := by
  obtain ⟨group, group_mem, mem⟩ := List.mem_flatMap.mp (h.members.mem_iff.mpr mem)
  exact ⟨group, group_mem, (h.keyed group group_mem declaration mem).symm⟩

end Groups

/-! ## Redeclarations -/

/-- A declaration repeats an earlier one, the earliest of its name. -/
structure Redeclares (all : List Declaration) (first later : Declaration) : Prop where
  first_mem : first ∈ all
  later_mem : later ∈ all
  conflicts : first.conflictsWith later
  precedes : first.Precedes later
  earliest : ∀ other ∈ all, other.conflictsWith later →
    first.placement.origin.upTo other.placement.origin

/-- The error for a declaration that repeats an earlier one. -/
def redeclarationOf (files : List FileEntry) (first later : Declaration) : Redeclaration where
  isType := later.isType
  name := later.name.text
  first := sourcePathAt files first.placement.origin
  second := sourcePathAt files later.placement.origin

section Redeclares

variable {all members : List Declaration} {first later a b : Declaration} {files : List FileEntry}
    {isType : Bool} {key : String} {conflict : Origin × Redeclaration}
    {conflicts : List (Origin × Redeclaration)}

theorem Declaration.bears_of_conflictsWith (h : a.conflictsWith b) (bears : b.bears isType key) :
    a.bears isType key := by
  simp only [conflictsWith, Declaration.bears, Bool.and_eq_true, beq_iff_eq] at *
  grind

/-- What stands in front of a declaration of its name makes it a redeclaration. -/
theorem exists_redeclares (sorted : all.Pairwise Declaration.Precedes) (ha : a ∈ all) (hb : b ∈ all)
    (conflicts : a.conflictsWith b) (precedes : a.Precedes b) :
    ∃ first, Redeclares all first b := by
  obtain ⟨bears_a, bears_b⟩ := Declaration.conflictsWith_iff.mp conflicts
  have a_mem := List.mem_filter.mpr ⟨ha, bears_a⟩
  have pairs := sorted.filter (·.bears b.isType b.name.key)
  cases namesakes : all.filter (·.bears b.isType b.name.key) with
  | nil => simp [namesakes] at a_mem
  | cons first rest =>
    rw [namesakes] at a_mem pairs
    have first_mem := List.mem_filter.mp (namesakes ▸ List.mem_cons_self)
    have earliest (other) (mem : other ∈ first :: rest) :
        first.placement.origin.upTo other.placement.origin := by
      obtain rfl | mem := List.mem_cons.mp mem
      · exact Origin.upTo_iff.mpr (.inr ⟨rfl, le_rfl⟩)
      · exact ((List.pairwise_cons.mp pairs).1 other mem).upTo
    refine ⟨first, first_mem.1, hb, Declaration.conflictsWith_of_bears first_mem.2 bears_b, ?_,
      fun other mem conflicts => earliest other ?_⟩
    · have le := Origin.upTo_iff.mp (earliest a a_mem)
      have lt := Origin.not_upTo_iff.mp precedes
      exact Origin.not_upTo_iff.mpr (by omega)
    · rw [← namesakes]
      exact List.mem_filter.mpr ⟨mem, (Declaration.conflictsWith_iff.mp conflicts).1⟩

/-- What is reported of a name: all that bear it repeat the earliest one. -/
theorem mem_repetitions_iff (sorted : all.Pairwise Declaration.Precedes)
    (gathered : members.Perm (all.filter (·.bears isType key))) :
    conflict ∈ repetitions files members ↔ ∃ first later, Redeclares all first later ∧
      later.bears isType key ∧
      conflict = (later.placement.origin, redeclarationOf files first later) := by
  have pairs := sorted.filter (·.bears isType key)
  rw [repetitions, mergeSort_declarations gathered pairs]
  have mem_iff {declaration} : declaration ∈ all.filter (·.bears isType key) ↔
      declaration ∈ all ∧ declaration.bears isType key := List.mem_filter
  -- In order, the first of those that bear the name is the earliest, and the others repeat it.
  cases namesakes : all.filter (·.bears isType key) with
  | nil =>
    rw [namesakes] at mem_iff
    simp only [List.not_mem_nil, false_iff]
    rintro ⟨first, later, redeclares, bears, -⟩
    exact List.not_mem_nil (mem_iff.mpr ⟨redeclares.later_mem, bears⟩)
  | cons first rest =>
    rw [namesakes] at mem_iff pairs
    have pairs := List.pairwise_cons.mp pairs
    have first_mem := mem_iff.mp (List.mem_cons_self (a := first))
    simp only [List.mem_map]
    constructor
    · rintro ⟨later, later_mem, rfl⟩
      have later_facts := mem_iff.mp (List.mem_cons_of_mem _ later_mem)
      refine ⟨first, later, ⟨first_mem.1, later_facts.1,
        Declaration.conflictsWith_of_bears first_mem.2 later_facts.2, pairs.1 later later_mem,
        fun other mem conflicts => ?_⟩, later_facts.2, rfl⟩
      obtain rfl | mem := List.mem_cons.mp
        (mem_iff.mpr ⟨mem, Declaration.bears_of_conflictsWith conflicts later_facts.2⟩)
      · exact Origin.upTo_iff.mpr (.inr ⟨rfl, le_rfl⟩)
      · exact (pairs.1 other mem).upTo
    · rintro ⟨first', later, redeclares, bears, rfl⟩
      have first'_mem := mem_iff.mpr ⟨redeclares.first_mem,
        Declaration.bears_of_conflictsWith redeclares.conflicts bears⟩
      have le := redeclares.earliest first first_mem.1
        (Declaration.conflictsWith_of_bears first_mem.2 bears)
      have same : first' = first := by
        obtain same | mem := List.mem_cons.mp first'_mem
        · exact same
        · have := pairs.1 first' mem
          rw [Declaration.Precedes, le] at this
          cases this
      subst same
      obtain same | mem := List.mem_cons.mp (mem_iff.mpr ⟨redeclares.later_mem, bears⟩)
      · have := redeclares.precedes
        rw [same, Declaration.Precedes, Origin.not_upTo_iff] at this
        omega
      · exact ⟨later, mem, rfl⟩

theorem earliest?_eq_none_iff : earliest? conflicts = none ↔ conflicts = [] := by
  cases conflicts with
  | nil => exact ⟨fun _ => rfl, fun _ => rfl⟩
  | cons conflict rest =>
    simp only [earliest?, reduceCtorEq, iff_false]
    grind

theorem earliest?_eq_some (h : earliest? conflicts = some conflict) :
    conflict ∈ conflicts ∧ ∀ other ∈ conflicts, conflict.1.upTo other.1 := by
  induction conflicts generalizing conflict with
  | nil => cases h
  | cons next rest ih =>
    have refl (origin : Origin) : origin.upTo origin := Origin.upTo_iff.mpr (.inr ⟨rfl, le_rfl⟩)
    unfold earliest? at h
    split at h
    case h_1 none_left =>
      rw [earliest?_eq_none_iff] at none_left
      cases h
      simp [none_left, refl]
    case h_2 other found =>
      obtain ⟨mem, least⟩ := ih found
      split at h
      case isTrue le =>
        cases h
        refine ⟨List.mem_cons_self, List.forall_mem_cons.mpr ⟨refl _, fun third third_mem => ?_⟩⟩
        exact Origin.upTo_trans le (least third third_mem)
      case isFalse gt =>
        cases h
        refine ⟨List.mem_cons_of_mem _ mem, List.forall_mem_cons.mpr ⟨?_, least⟩⟩
        have total := Origin.upTo_total conflict.1 next.1
        simpa [gt] using total

end Redeclares

/-! ## Population -/

namespace Population

/-- The declarations have been visited, in any order. -/
structure Gathered (population : Population) (all : List Declaration) : Prop where
  functions : population.functions.Gathers (unconditional false all)
  types : population.types.Gathers (unconditional true all)

/-- The units of some files have been visited, in any order. -/
structure Holds (population : Population) (files : List FileEntry) : Prop where
  gathered : population.Gathered (declaredIn files)
  files : population.files.Perm files

/-- The maps of a population give their entries back in another order. -/
structure Shuffles (population other : Population) : Prop where
  functions : population.functions.Perm other.functions
  types : population.types.Perm other.types
  files : population.files.Perm other.files

variable {population other : Population} {all : List Declaration} {files files' : List FileEntry}
  {base : Option String} {units : List SourceUnit} {visits : List (Nat × SourceUnit)}

/-- One declaration more has been visited. -/
theorem Gathered.collect (h : population.Gathered all) (declaration : Declaration) :
    (population.collect declaration).Gathered (all ++ [declaration]) := by
  obtain ⟨functions, types⟩ := h
  unfold Population.collect
  split
  case isTrue conditional =>
    constructor
    · simpa [unconditional, conditional] using functions
    · simpa [unconditional, conditional] using types
  case isFalse conditional =>
    split
    case isTrue isType =>
      constructor
      · simpa [unconditional, conditional, isType] using functions
      · simpa [unconditional, conditional, isType] using types.push declaration
    case isFalse isFunction =>
      constructor
      · simpa [unconditional, conditional, isFunction] using functions.push declaration
      · simpa [unconditional, conditional, isFunction] using types

theorem Gathered.foldl_collect (h : population.Gathered all) (declarations : List Declaration) :
    (declarations.foldl Population.collect population).Gathered (all ++ declarations) := by
  induction declarations generalizing population all with
  | nil => simpa using h
  | cons declaration rest ih => simpa using ih (h.collect declaration)

theorem files_foldl_collect (population : Population) (declarations : List Declaration) :
    (declarations.foldl collect population).files = population.files := by
  induction declarations generalizing population with
  | nil => rfl
  | cons declaration rest ih =>
    rw [List.foldl_cons, ih]
    unfold collect
    split
    · rfl
    · split <;> rfl

theorem Holds.visit (h : population.Holds files) (visited : Nat × SourceUnit) :
    (population.visit base visited).Holds (files ++ [FileEntry.ofUnit base visited.1 visited.2]) where
  gathered := by
    have := h.gathered.foldl_collect (FileEntry.ofUnit base visited.1 visited.2).declarations
    rw [declaredIn, List.flatMap_append, List.flatMap_singleton]
    exact ⟨this.functions, this.types⟩
  files := by
    simp only [Population.visit, files_foldl_collect]
    exact h.files.append_right _

/-- **What has been gathered after some visits.** -/
theorem holds_ofVisits (base : Option String) (visits : List (Nat × SourceUnit)) :
    (ofVisits base visits).Holds (visits.map fun visited =>
      FileEntry.ofUnit base visited.1 visited.2) := by
  have more (visits : List (Nat × SourceUnit)) {population} (files) (h : population.Holds files) :
      (visits.foldl (visit base) population).Holds (files ++ visits.map fun visited =>
        FileEntry.ofUnit base visited.1 visited.2) := by
    induction visits generalizing population files with
    | nil => simpa using h
    | cons visited rest ih => simpa using ih _ (h.visit visited)
  exact more visits [] ⟨⟨Groups.gathers_nil, Groups.gathers_nil⟩, .nil⟩

/-- Neither the order of the visits counts nor that of the maps. -/
theorem Holds.perm (h : other.Holds files) (shuffled : population.Shuffles other)
    (perm : files.Perm files') : population.Holds files' where
  gathered := ⟨h.gathered.functions.perm shuffled.functions ((perm.flatMap_right _).filter _),
    h.gathered.types.perm shuffled.types ((perm.flatMap_right _).filter _)⟩
  files := (shuffled.files.trans h.files).trans perm

/-- A group holds what bears its name. -/
theorem Gathered.group (h : population.Gathered all) {group : String × List Declaration}
    (mem : group ∈ population.functions ++ population.types) :
    ∃ isType, group.2.Perm (all.filter (·.bears isType group.1)) := by
  obtain mem | mem := List.mem_append.mp mem
  · exact ⟨false, filter_unconditional false _ all ▸ h.functions.group mem⟩
  · exact ⟨true, filter_unconditional true _ all ▸ h.types.group mem⟩

/-- What bears a name is in a group. -/
theorem Gathered.exists_group (h : population.Gathered all) {declaration : Declaration}
    (mem : declaration ∈ all) (regular : declaration.placement.conditional = false) :
    ∃ group ∈ population.functions ++ population.types,
      group.2.Perm (all.filter (·.bears declaration.isType declaration.name.key)) := by
  have gathered (isType : Bool) (kind : declaration.isType = isType) :
      declaration ∈ unconditional isType all :=
    List.mem_filter.mpr ⟨mem, by simp [regular, kind]⟩
  cases kind : declaration.isType with
  | false =>
    obtain ⟨group, mem, same⟩ := h.functions.exists_group (gathered false kind)
    refine ⟨group, List.mem_append_left _ mem, ?_⟩
    rw [← same, ← filter_unconditional]
    exact h.functions.group mem
  | true =>
    obtain ⟨group, mem, same⟩ := h.types.exists_group (gathered true kind)
    refine ⟨group, List.mem_append_right _ mem, ?_⟩
    rw [← same, ← filter_unconditional]
    exact h.types.group mem

/-- **The redeclarations that are found.** -/
theorem Gathered.mem_repetitions_iff (h : population.Gathered all)
    (sorted : all.Pairwise Declaration.Precedes) (files : List FileEntry)
    (conflict : Origin × Redeclaration) :
    (conflict ∈ (population.functions ++ population.types).flatMap fun group =>
      repetitions files group.2) ↔
    ∃ first later, Redeclares all first later ∧
      conflict = (later.placement.origin, redeclarationOf files first later) := by
  rw [List.mem_flatMap]
  constructor
  · rintro ⟨group, mem, conflict_mem⟩
    obtain ⟨isType, members⟩ := h.group mem
    obtain ⟨first, later, redeclares, -, same⟩ :=
      (StackScript.mem_repetitions_iff sorted members).mp conflict_mem
    exact ⟨first, later, redeclares, same⟩
  · rintro ⟨first, later, redeclares, same⟩
    have bears := (Declaration.conflictsWith_iff.mp redeclares.conflicts).2
    obtain ⟨group, mem, members⟩ := h.exists_group redeclares.later_mem
      (by simpa [Declaration.bears] using bears)
    exact ⟨group, mem, (StackScript.mem_repetitions_iff sorted members).mpr
      ⟨first, later, redeclares, bears, same⟩⟩

/-- **What population comes to**, told by the redeclarations. -/
theorem Holds.freeze_eq (h : population.Holds (Table.filesOf base units)) :
    (population.freeze = .ok (Table.filesOf base units) ∧
      ∀ first later, ¬ Redeclares (declaredIn (Table.filesOf base units)) first later) ∨
    ∃ first later, Redeclares (declaredIn (Table.filesOf base units)) first later ∧
      (∀ first' later', Redeclares (declaredIn (Table.filesOf base units)) first' later' →
        later.placement.origin.upTo later'.placement.origin) ∧
      population.freeze = .error (redeclarationOf (Table.filesOf base units) first later) := by
  have conflicts {conflict} := h.gathered.mem_repetitions_iff (pairwise_declaredIn base units)
    (Table.filesOf base units) conflict
  unfold freeze
  rw [mergeSort_files h.files]
  dsimp only
  split
  case h_1 origin error found =>
    obtain ⟨mem, least⟩ := earliest?_eq_some found
    obtain ⟨first, later, redeclares, same⟩ := conflicts.mp mem
    cases same
    exact .inr ⟨first, later, redeclares,
      fun first' later' other => least _ (conflicts.mpr ⟨first', later', other, rfl⟩), rfl⟩
  case h_2 none_found =>
    rw [earliest?_eq_none_iff] at none_found
    refine .inl ⟨rfl, fun first later redeclares => ?_⟩
    have := conflicts.mpr ⟨first, later, redeclares, rfl⟩
    rw [none_found] at this
    exact List.not_mem_nil this

end Population

end StackScript
