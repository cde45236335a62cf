import StackScript.Outline
import StackScript.Yaml.Fields

/-!
# Settings of the compiler

Settings start from a preset; fields of a settings file replace some of them.

## Main definitions

* `Settings`, `Preset`: the settings and their two presets
* `Settings.validate`: the check that every compilation makes
* `Settings.ofText`: the settings that a file describes
-/

namespace StackScript

/-- How much checking the compiled code does. -/
inductive Optimization where
  | debug
  | release
  deriving Repr, DecidableEq

def Optimization.word : Optimization → String
  | .debug => "debug"
  | .release => "release"

/-- The level of optimization of a name. -/
def Optimization.ofName? (name : String) : Option Optimization :=
  if name = debug.word then some .debug
  else if name = release.word then some .release
  else none

/-- Settings that belong together. -/
inductive Preset where
  | debug
  | release
  deriving Repr, DecidableEq

def Preset.word : Preset → String
  | .debug => "debug"
  | .release => "release"

/-- The settings of a compilation. -/
structure Settings where
  optimization : Optimization
  /-- The code of every statement with a place in the source is marked with that place. -/
  sequencePoints : Bool
  /-- The number of local slots that a body may have. -/
  maxLocals : Nat
  /-- The compiler may work on several routines at a time. Its answers do not depend on this. -/
  parallel : Bool
  /-- The directory that paths are relative to. -/
  baseDirectory : Option String
  deriving Repr, DecidableEq

/-- Why settings are refused. -/
inductive SettingsError where
  | localsOutOfRange (value : Nat)
  | unknownPreset (name : String)
  /-- The file is no document of known fields with values of the right kinds. -/
  | unreadable
  deriving Repr, DecidableEq

namespace Settings

/-- The largest number of local slots that the instructions can address. -/
def localsLimit : Nat := 65534

/-- The settings of a preset. -/
def ofPreset : Preset → Settings
  | .debug => ⟨.debug, true, localsLimit, false, none⟩
  | .release => ⟨.release, false, localsLimit, true, none⟩

end Settings

namespace SettingsError

/-- The text of an error; a file that cannot be read has none of its own. -/
def message : SettingsError → String
  | .localsOutOfRange value =>
    "Invalid range for field 'max_locals': " ++ toString value ++ " not in 1..=" ++
      toString Settings.localsLimit ++ ". The target format addresses locals with 16-bit indices"
  | .unknownPreset name =>
    "Unknown preset '" ++ name ++ "'. Valid presets: debug, release"
  | .unreadable => "the settings are not readable"

end SettingsError

/-- The preset of a name, in any case of its letters. -/
def Preset.ofName (name : String) : Except SettingsError Preset :=
  let word := Text.lowercase name
  if word = "debug" then .ok .debug
  else if word = "release" then .ok .release
  else .error (.unknownPreset name)

namespace Settings

/-- The settings, if the number of local slots is one that the instructions can address. -/
def validate (settings : Settings) : Except SettingsError Settings :=
  if settings.maxLocals = 0 ∨ localsLimit < settings.maxLocals then
    .error (.localsOutOfRange settings.maxLocals)
  else .ok settings

def outline (settings : Settings) : Outline :=
  .record "Settings" [
    ("optimization", .word settings.optimization.word),
    ("emit_sequence_points", .bool settings.sequencePoints),
    ("max_locals", .nat settings.maxLocals),
    ("parallel", .bool settings.parallel),
    ("base_directory", .ofOption .text settings.baseDirectory)]

/-! ## Settings files -/

/-- What a file says about the settings. -/
structure Overrides where
  preset : Option String
  optimization : Option Optimization
  sequencePoints : Option Bool
  maxLocals : Option Nat
  parallel : Option Bool
  baseDirectory : Option String

/-- A word for nothing. -/
def isNullWord (text : String) : Bool := ["~", "null", "Null", "NULL"].contains text

/-- The value is left out; none if its tag says so and its text does not. -/
def isNothing? (scalar : Yaml.Scalar) : Option Bool :=
  match scalar.style, scalar.tag with
  | .plain, none => some (scalar.text == "" || isNullWord scalar.text)
  | .plain, some tag =>
    if tag != Yaml.Tag.ofText "tag:yaml.org,2002:null" then some false
    else if isNullWord scalar.text then some true
    else none
  | _, _ => some false

/-- A scalar whose text can spell a value of a kind: a plain one, or a literal block whose tag is
that of the kind. -/
def spells (kind : String) (scalar : Yaml.Scalar) : Bool :=
  match scalar.style with
  | .plain => true
  | .literal => scalar.tag == some (Yaml.Tag.ofText ("tag:yaml.org,2002:" ++ kind))
  | .other => false

def readBool? (scalar : Yaml.Scalar) : Option Bool :=
  if !spells "bool" scalar then none
  else if ["true", "True", "TRUE"].contains scalar.text then some true
  else if ["false", "False", "FALSE"].contains scalar.text then some false
  else none

/-- The number that digits of a radix spell; none without digits. -/
def readRadix? (radix : Nat) (cs : List Char) : Option Nat :=
  if cs.isEmpty then none
  else cs.foldlM (fun n c =>
    match Text.hexDigit? c with
    | some d => if d < radix then some (radix * n + d) else none
    | none => none) 0

/-- A number of 64 bits without a minus sign. It may have a mark for its radix, and a decimal
number does not start with a superfluous zero. -/
def readCount? (scalar : Yaml.Scalar) : Option Nat :=
  if !spells "int" scalar then none
  else
    let cs := match scalar.text.toList with
      | '+' :: rest => rest
      | cs => cs
    let number? := match cs with
      | '0' :: 'x' :: rest => readRadix? 16 rest
      | '0' :: 'o' :: rest => readRadix? 8 rest
      | '0' :: 'b' :: rest => readRadix? 2 rest
      | ['0'] => some 0
      | '0' :: _ => none
      | rest => readRadix? 10 rest
    number?.filter (· < Nat.pow 2 64)

/-- The name that a tag of the document's own gives; `!` alone is a name too. -/
def ownTagName? (tag : Yaml.Tag) : Option String :=
  match tag with
  | [] => none
  | mark :: name =>
    if mark != 0x21 then none
    else String.fromUTF8? ⟨(if name.isEmpty then tag else name).toArray⟩

/-- A level of optimization: the text, or a tag with nothing behind it. -/
def readOptimization? (scalar : Yaml.Scalar) : Option Optimization :=
  match scalar.tag.bind ownTagName? with
  | none => Optimization.ofName? scalar.text
  | some name =>
    if scalar.style == .plain && (scalar.text == "" || isNullWord scalar.text) then
      Optimization.ofName? name
    else none

def readText? (scalar : Yaml.Scalar) : Option String := some scalar.text

/-- The value of a field that may be left out; none if a value is there and cannot be read. -/
def readOptional? {α : Type} (read : Yaml.Scalar → Option α) (scalar : Yaml.Scalar) :
    Option (Option α) := do
  if ← isNothing? scalar then some none else (read scalar).map some

/-- The value of a field; none if it is there and cannot be read. -/
def fieldValue? {α : Type} (fields : List (String × Yaml.Scalar)) (name : String)
    (read : Yaml.Scalar → Option α) : Option (Option α) :=
  match fields.lookup name with
  | none => some none
  | some scalar => readOptional? read scalar

/-- The names of the fields of a settings file. -/
def fieldNames : List String :=
  ["preset", "optimization", "emit_sequence_points", "max_locals", "parallel", "base_directory"]

/-- No name comes twice. -/
def distinct : List String → Bool
  | [] => true
  | name :: rest => !rest.contains name && distinct rest

/-- What the fields of a file say: every field is known and comes once, and has a value of the
right kind. -/
def Overrides.ofFields? (fields : List (Yaml.Scalar × Yaml.Scalar)) : Option Overrides := do
  let fields := fields.map fun (name, value) => (name.text, value)
  let names := fields.map (·.1)
  if !(names.all fieldNames.contains && distinct names) then none
  else
    some {
      preset := ← fieldValue? fields "preset" readText?
      optimization := ← fieldValue? fields "optimization" readOptimization?
      sequencePoints := ← fieldValue? fields "emit_sequence_points" readBool?
      maxLocals := ← fieldValue? fields "max_locals" readCount?
      parallel := ← fieldValue? fields "parallel" readBool?
      baseDirectory := ← fieldValue? fields "base_directory" readText? }

/-- The settings with what a file says in their place. -/
def override (settings : Settings) (overrides : Overrides) : Settings where
  optimization := overrides.optimization.getD settings.optimization
  sequencePoints := overrides.sequencePoints.getD settings.sequencePoints
  maxLocals := overrides.maxLocals.getD settings.maxLocals
  parallel := overrides.parallel.getD settings.parallel
  baseDirectory := overrides.baseDirectory.or settings.baseDirectory

/-- The settings that a file describes. Fields that it leaves out come from the preset that it
names, else from the debug preset. -/
def ofText (text : String) : Except SettingsError Settings :=
  match (Yaml.readFields? text).bind Overrides.ofFields? with
  | none => .error .unreadable
  | some overrides => do
    let preset ← match overrides.preset with
      | some name => Preset.ofName name
      | none => .ok .debug
    ((ofPreset preset).override overrides).validate

end Settings

end StackScript
