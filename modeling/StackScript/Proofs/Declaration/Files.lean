import StackScript.Proofs.Declaration.Paths
import StackScript.Proofs.Program.Linkage

/-!
# Finding files

A table finds the file of a path by the normal form of that path. The paths that it knows its files
by are normal forms themselves, and are normalized once more when they are looked up: a path that
happens to start with the base directory loses it again, and then no longer leads to the file.

Two spellings of one path have one normal form, and lead to one file, unless one of them spells out
the base directory and the other does not.

## Main definitions

* `Table.Names`: the paths that stand in a table and in the bodies compiled from it

## Main results

* `Table.finds_iff`: which paths lead to a file
* `Table.exists_file_of_names`: only files of the table are named
* `Table.finds_named_iff`: a named path leads to its file unless it starts with the base directory
* `normalizePath_respelled`: which spellings of a path have one normal form, and lead to one file
-/

namespace StackScript

variable {base : Option String} {units : List SourceUnit} {table : Table} {settings : Settings}

/-! ## Look-up -/

namespace Table

/-- A path leads to a file with the path of one that is there if it has that normal form. -/
theorem finds_iff {file : FileEntry} (mem : file ∈ table.files) (path : String) :
    (∃ found, table.file? path = some found ∧ found.path = file.path) ↔
      normalizePath table.baseDirectory path = file.path := by
  constructor
  · rintro ⟨found, eq, same⟩
    rw [← same]
    exact (beq_iff_eq.mp (List.find?_eq_some_iff_append.mp eq).1).symm
  · intro key
    have there : (table.file? path).isSome := by
      rw [file?, List.find?_isSome]
      exact ⟨file, List.mem_reverse.mpr mem, beq_iff_eq.mpr key.symm⟩
    obtain ⟨found, eq⟩ := Option.isSome_iff_exists.mp there
    refine ⟨found, eq, ?_⟩
    rw [← key]
    exact beq_iff_eq.mp (List.find?_eq_some_iff_append.mp eq).1

/-- Paths with one normal form lead to one file. -/
theorem file?_congr {p q : String}
    (same : normalizePath table.baseDirectory p = normalizePath table.baseDirectory q) :
    table.file? p = table.file? q := by
  rw [file?, file?, same]

theorem baseDirectory_of_ofUnits (h : ofUnits base units = .ok table) :
    table.baseDirectory = base := by
  rw [ofUnits_eq_ok_iff, ofFiles?] at h
  split at h <;> cases h
  rfl

/-- Every unit is a file of the table. -/
theorem exists_file_of_mem (h : ofUnits base units = .ok table) {unit : SourceUnit}
    (mem : unit ∈ units) :
    ∃ file ∈ table.files, file.path = normalizePath base unit.path := by
  obtain ⟨index, there⟩ := List.mem_iff_getElem?.mp mem
  have numbered : (unit, index) ∈ units.zipIdx := List.mk_mem_zipIdx_iff_getElem?.mpr there
  rw [files_of_ofUnits h]
  exact ⟨FileEntry.ofUnit base index unit, List.mem_map.mpr ⟨_, numbered, rfl⟩, rfl⟩

/-- Every file of the table is a unit, and its path is the normal form of the one given. -/
theorem path_of_mem_files (h : ofUnits base units = .ok table) {file : FileEntry}
    (mem : file ∈ table.files) : file.path = normalizePath base file.sourcePath := by
  rw [files_of_ofUnits h] at mem
  obtain ⟨_, -, rfl⟩ := List.mem_map.mp mem
  rfl

/-! ## What names a file -/

/-- The path stands in the table, as that of a file or of a declaration, or in the body that one of
its items is compiled to. -/
inductive Names (table : Table) : String → Prop
  | file {file} (mem : file ∈ table.files) : Names table file.path
  | function {entry} (mem : entry ∈ table.functions) : Names table entry.placement.file
  | type {entry} (mem : entry ∈ table.types) : Names table entry.placement.file
  | body {settings n item body} (mem : item ∈ WorkItem.all table)
    (compiled : (item.compile table settings n).1 = .ok body) : Names table body.sourceFile

end Table

/-- The file that an item is declared in. -/
def WorkItem.file : WorkItem → String
  | .routine _ file _ => file
  | .constructor entry | .sharedInitializer entry | .boundInitializer entry | .invoke entry =>
    entry.placement.file

theorem WorkItem.sourceFile_of_compile {item : WorkItem} {n : SiteId} {body : Body}
    (h : (item.compile table settings n).1 = .ok body) : body.sourceFile = item.file := by
  cases item with
  | routine subject file site =>
    obtain ⟨_, _, -, -, rfl⟩ := exists_layout_of_compileRoutine h
    rfl
  | constructor | sharedInitializer | boundInitializer | invoke =>
    obtain ⟨_, _, -, -, rfl⟩ := exists_assembled_of_compileMember h
    rfl

theorem WorkItem.file_of_mem_ofType {item : WorkItem} {entry : TypeEntry}
    (mem : item ∈ ofType entry) : item.file = entry.placement.file := by
  simp only [ofType, List.mem_append, List.mem_map, List.mem_singleton,
    List.mem_ite_nil_right] at mem
  obtain (((⟨method, -, rfl⟩ | rfl) | ⟨-, rfl⟩) | ⟨-, rfl⟩) | ⟨-, rfl⟩ := mem <;> rfl

namespace Table

/-- An item is declared in the file of a function or a type. -/
theorem exists_declaration_of_item {item : WorkItem} (mem : item ∈ WorkItem.all table) :
    ∃ declaration ∈ table.declarations, declaration.placement.file = item.file := by
  obtain mem | mem := List.mem_append.mp mem
  · obtain ⟨entry, there, rfl⟩ := List.mem_map.mp mem
    exact ⟨_, mem_declarations_of_mem_functions there, rfl⟩
  · obtain ⟨entry, there, mem⟩ := List.mem_flatMap.mp mem
    exact ⟨_, mem_declarations_of_mem_types there, (WorkItem.file_of_mem_ofType mem).symm⟩

/-- Whatever names a file names one of the table. -/
theorem exists_file_of_names (h : ofUnits base units = .ok table) {path : String}
    (names : table.Names path) : ∃ file ∈ table.files, file.path = path := by
  have declared {declaration : Declaration} (mem : declaration ∈ table.declarations) :
      ∃ file ∈ table.files, file.path = declaration.placement.file := by
    obtain ⟨unit, there, conditional, declared, origin, -, rfl⟩ :=
      mem_declarations_of_ofUnits h mem
    simpa using exists_file_of_mem h there
  cases names with
  | file mem => exact ⟨_, mem, rfl⟩
  | function mem => exact declared (mem_declarations_of_mem_functions mem)
  | type mem => exact declared (mem_declarations_of_mem_types mem)
  | body mem compiled =>
    obtain ⟨declaration, there, same⟩ := exists_declaration_of_item mem
    rw [WorkItem.sourceFile_of_compile compiled, ← same]
    exact declared there

end Table

namespace Table

/-- **A path that names a file leads to that file** unless it starts with the base directory, which
it can do only if that directory is given without a separator in front. The path that was given for
the file leads to it in any case. -/
theorem finds_named_iff (h : ofUnits base units = .ok table) :
    (∀ path, table.Names path →
      ((∃ file, table.file? path = some file ∧ file.path = path) ↔ ¬ SpelledInside base path)) ∧
    ((∀ b ∈ base, (foldPath b).head? = some '/') → ∀ path, table.Names path →
      ∃ file, table.file? path = some file ∧ file.path = path) ∧
    ∀ file ∈ table.files,
      (∃ found, table.file? file.sourcePath = some found ∧ found.path = file.path) ∧
      (table.file? file.path = table.file? file.sourcePath ↔ ¬ SpelledInside base file.path) := by
  have finds {path : String} (names : table.Names path) :
      (∃ file, table.file? path = some file ∧ file.path = path) ↔ ¬ SpelledInside base path := by
    obtain ⟨file, mem, rfl⟩ := exists_file_of_names h names
    rw [finds_iff mem, baseDirectory_of_ofUnits h, path_of_mem_files h mem]
    exact normalizePath_normalizePath_iff base file.sourcePath
  refine ⟨fun path => finds, fun absolute path names => ?_, fun file mem => ?_⟩
  · obtain ⟨file, mem, rfl⟩ := exists_file_of_names h names
    refine (finds names).mpr ?_
    rw [path_of_mem_files h mem]
    exact not_spelledInside_of_absolute absolute file.sourcePath
  · have given : ∃ found, table.file? file.sourcePath = some found ∧ found.path = file.path := by
      rw [finds_iff mem, baseDirectory_of_ofUnits h, path_of_mem_files h mem]
    refine ⟨given, ?_⟩
    rw [← finds (.file mem)]
    constructor
    · intro same
      rwa [same]
    · intro found
      exact file?_congr (((finds_iff mem _).mp found).trans ((finds_iff mem _).mp given).symm)

/-- A file in a directory of the name of the base directory, and one beside it. -/
def nestedUnits : List SourceUnit := [
  ⟨"app/Main.php", [.function ⟨"main", [], true, none, false, ⟨#[], #[]⟩⟩]⟩, ⟨"app/app/x.php", []⟩]

/-- The file beside the directory is found by the path that its function names. -/
theorem finds_named_iff_nested :
    ∃ table, ofUnits (some "app") nestedUnits = .ok table ∧
      ∃ entry ∈ table.functions, entry.placement.file = "main.php" ∧
        ∃ file, table.file? entry.placement.file = some file ∧
          file.path = entry.placement.file := by
  have populated : ofUnits (some "app") nestedUnits =
      .ok ⟨filesOf (some "app") nestedUnits, some "app"⟩ :=
    ofUnits_eq_ok_iff.mpr (if_pos (by decide +kernel))
  have mem : ⟨.ofString "main", ⟨normalizePath (some "app") "app/Main.php", false, ⟨0, 0⟩⟩,
      ⟨"main", [], true, none, false, ⟨#[], #[]⟩⟩⟩ ∈
      functions ⟨filesOf (some "app") nestedUnits, some "app"⟩ := List.mem_cons_self
  refine ⟨_, populated, _, mem, by decide +kernel, ?_⟩
  exact ((finds_named_iff populated).1 _ (.function mem)).mpr (by decide +kernel)

/-- The file in the directory is listed under a path that does not lead to it. -/
theorem exists_unfound_nested :
    ∃ table, ofUnits (some "app") nestedUnits = .ok table ∧
      ∃ file ∈ table.files, file.path = "app/x.php" ∧ table.file? file.path = none ∧
        ∃ found, table.file? file.sourcePath = some found ∧ found.path = file.path := by
  have populated : ofUnits (some "app") nestedUnits =
      .ok ⟨filesOf (some "app") nestedUnits, some "app"⟩ :=
    ofUnits_eq_ok_iff.mpr (if_pos (by decide +kernel))
  have mem : FileEntry.ofUnit (some "app") 1 ⟨"app/app/x.php", []⟩ ∈
      filesOf (some "app") nestedUnits := List.mem_cons_of_mem _ List.mem_cons_self
  refine ⟨_, populated, _, mem, by decide +kernel, ?_, (finds_iff mem _).mpr (by decide +kernel)⟩
  exact Option.isNone_iff_eq_none.mp (by decide +kernel)

end Table

/-! ## Spellings of one path -/

/-- **Two spellings of one path have one normal form** if both of them have the base directory in
front, as it is spelled, or neither of them has: always without a base directory, and always if only
letter case and the kind of separators differ. Under the same condition the file of one of them is
found by the other. -/
theorem normalizePath_respelled {base base' : Option String} {p q : String}
    (hp : Text.IsAscii p) (hq : Text.IsAscii q) (hbase : ∀ b ∈ base, Text.IsAscii b)
    (hbase' : ∀ b ∈ base', Text.IsAscii b) (path : Respelled p q)
    (bases : Option.Rel Respelled base base') :
    (normalizePath base p = normalizePath base' q ↔ OnOneSide base base' p q) ∧
    (normalizePath none p = normalizePath none q) ∧
    (Recased p q → Option.Rel Recased base base' → normalizePath base p = normalizePath base' q) ∧
    ∀ units table, Table.ofUnits base units = .ok table → (∃ unit ∈ units, unit.path = p) →
      ((∃ file, table.file? q = some file ∧ file.path = normalizePath base p) ↔
        OnOneSide base base p q) := by
  have parts := path.namedParts_eq hp hq
  refine ⟨?_, ?_, ?_, ?_⟩
  · refine normalizePath_eq_iff_onOneSide parts ?_
    cases bases with
    | none => exact .none
    | some spelled => exact .some (spelled.namedParts_eq (hbase _ rfl) (hbase' _ rfl))
  · rw [normalizePath_eq_iff]
    exact parts
  · intro recased recased'
    have same := recased.foldPath_eq hp hq
    cases recased' with
    | none => rw [normalizePath, normalizePath, same]
    | some recased' =>
      rw [normalizePath, normalizePath, same, stripBase, stripBase,
        recased'.foldPath_eq (hbase _ rfl) (hbase' _ rfl)]
  · rintro units table populated ⟨unit, mem, rfl⟩
    obtain ⟨file, there, key⟩ := Table.exists_file_of_mem populated mem
    rw [← key, Table.finds_iff there, Table.baseDirectory_of_ofUnits populated, key, eq_comm]
    refine normalizePath_eq_iff_onOneSide parts ?_
    cases base with
    | none => exact .none
    | some b => exact .some rfl

/-- With capitals, backslashes, and the current directory behind the base directory, the path is
still the same, and so is its normal form. -/
theorem normalizePath_respelled_windows :
    normalizePath (some "c:/app/") "C:\\App\\.\\Lib\\A.php" =
      normalizePath (some "C:\\App\\") "c:/app/lib/a.php" := by
  have shorter : Respelled "C:\\App\\.\\Lib\\A.php" "C:\\App\\Lib\\A.php" :=
    .symm _ _ (.rel _ _ (.current "C:\\App".toList "Lib\\A.php".toList (.inr rfl) (.inr rfl)))
  have recased : Recased "C:\\App\\Lib\\A.php" "c:/app/lib/a.php" := by decide +kernel
  have base : Recased "c:/app/" "C:\\App\\" := by decide +kernel
  refine (normalizePath_respelled (by decide +kernel) (by decide +kernel) ?_ ?_
    (.trans _ _ _ shorter recased.respelled) (.some base.respelled)).1.mpr (.inl ?_)
  · decide +kernel
  · decide +kernel
  · decide +kernel

/-- The current directory inside the base directory, as it is spelled by one of them, hides that the
path lies there: two spellings of one path have different normal forms, two spellings of the base
directory lead to different ones, and the file of the one path is not found by the other. -/
theorem exists_respelled_ne :
    Text.IsAscii "/srv/app/x.php" ∧ Text.IsAscii "/srv/./app/x.php" ∧ Text.IsAscii "/srv/app" ∧
      Text.IsAscii "/srv/./app" ∧ Respelled "/srv/app/x.php" "/srv/./app/x.php" ∧
      Respelled "/srv/app" "/srv/./app" ∧
      normalizePath (some "/srv/app") "/srv/app/x.php" ≠
        normalizePath (some "/srv/app") "/srv/./app/x.php" ∧
      normalizePath (some "/srv/app") "/srv/app/x.php" ≠
        normalizePath (some "/srv/./app") "/srv/app/x.php" ∧
      ∃ table, Table.ofUnits (some "/srv/app") [⟨"/srv/app/x.php", []⟩] = .ok table ∧
        table.file? "/srv/./app/x.php" = none := by
  have path : Respelled "/srv/app/x.php" "/srv/./app/x.php" :=
    .rel _ _ (.current "/srv".toList "app/x.php".toList (.inl rfl) (.inl rfl))
  have base : Respelled "/srv/app" "/srv/./app" :=
    .rel _ _ (.current "/srv".toList "app".toList (.inl rfl) (.inl rfl))
  have populated : Table.ofUnits (some "/srv/app") [⟨"/srv/app/x.php", []⟩] =
      .ok ⟨Table.filesOf (some "/srv/app") [⟨"/srv/app/x.php", []⟩], some "/srv/app"⟩ :=
    Table.ofUnits_eq_ok_iff.mpr (if_pos (by decide +kernel))
  refine ⟨by decide +kernel, by decide +kernel, by decide +kernel, by decide +kernel, path, base,
    by decide +kernel, by decide +kernel, _, populated, ?_⟩
  exact Option.isNone_iff_eq_none.mp (by decide +kernel)

end StackScript
