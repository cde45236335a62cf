import StackScript.Yaml.Token

/-!
# Documents that are mappings of scalars

A text holds at most one document, and that is nothing or a mapping of scalars to scalars, on lines
or between braces. A value can refer back to a node that carries an anchor.

## Main definitions

* `Scalar`: a scalar with its tag
* `Anchors`: what names refer to
* `readFields?`: the keys and values of a document, in order
-/

namespace StackScript.Yaml

/-- A scalar. -/
structure Scalar where
  style : Style
  tag : Option Tag
  text : String
  deriving Repr, DecidableEq

namespace Scalar

/-- A scalar for which nothing is written. -/
def empty : Scalar := ⟨.plain, none, ""⟩

end Scalar

/-! ## Anchors -/

/-- What names refer to. A name stands for a number, and the number for the node that got it last;
a node of `none` is no scalar. -/
structure Anchors where
  numbers : List (String × Nat)
  nodes : List (Nat × Option Scalar)

namespace Anchors

/-- No names. -/
def none : Anchors := ⟨[], []⟩

/-- Gives a node a name, and the name a number: that of the names known so far. -/
def set (anchors : Anchors) (name : String) (node : Option Scalar) : Anchors where
  numbers := (name, anchors.numbers.length) :: anchors.numbers.filter (·.1 != name)
  nodes := (anchors.numbers.length, node) :: anchors.nodes

/-- Gives a node its name, if it has one. -/
def setIf (anchors : Anchors) (name : Option String) (node : Option Scalar) : Anchors :=
  match name with
  | .none => anchors
  | some name => anchors.set name node

end Anchors

/-! ## Nodes -/

/-- A key or a value: a scalar, or the number of a name that refers to one. -/
inductive Node where
  | scalar (scalar : Scalar)
  | reference (number : Nat)
  deriving Repr, DecidableEq

/-- What is written in front of a node: its name and its tag, by handle and rest. -/
structure Properties where
  anchor : Option String
  tag : Option (String × Tag)

/-- The properties at the front, in either order, and what follows. -/
def readProperties : List Token → Properties × List Token
  | .anchor name :: .tag handle tag :: rest => (⟨some name, some (handle, tag)⟩, rest)
  | .tag handle tag :: .anchor name :: rest => (⟨some name, some (handle, tag)⟩, rest)
  | .anchor name :: rest => (⟨some name, none⟩, rest)
  | .tag handle tag :: rest => (⟨none, some (handle, tag)⟩, rest)
  | tokens => (⟨none, none⟩, tokens)

/-- The beginnings of tags that handles stand for. -/
abbrev Handles := List (String × Tag)

/-- The whole tag of a node, if it has one; a handle has to be known. -/
def resolveTag? (handles : Handles) : Option (String × Tag) → Option (Option Tag)
  | none => some none
  | some ("", tag) => some (some tag)
  | some (handle, tag) => (handles.lookup handle).map fun start => some (start ++ tag)

/-- The node at the front, which is a scalar or a reference, and what follows. -/
def readNode? (handles : Handles) (anchors : Anchors) (tokens : List Token) :
    Option (Node × Anchors × List Token) :=
  match tokens with
  | .reference name :: rest =>
    (anchors.numbers.lookup name).map fun number => (.reference number, anchors, rest)
  | tokens => do
    let (properties, rest) := readProperties tokens
    let tag ← resolveTag? handles properties.tag
    let (scalar, rest) ← match rest with
      | .scalar style text :: rest => some (⟨style, tag, text⟩, rest)
      | rest =>
        if properties.anchor.isSome || tag.isSome then some (⟨.plain, tag, ""⟩, rest) else none
    some (.scalar scalar, anchors.setIf properties.anchor (some scalar), rest)

/-- The node at the front, nothing in front of the tokens that end one. -/
def readNodeBefore? (ends : List Token) (handles : Handles) (anchors : Anchors)
    (tokens : List Token) : Option (Node × Anchors × List Token) :=
  match tokens with
  | token :: _ =>
    if ends.contains token then some (.scalar .empty, anchors, tokens)
    else readNode? handles anchors tokens
  | [] => none

/-! ## Mappings -/

/-- Keys and values with what names refer to behind them, and what follows them. -/
structure Fields where
  entries : List (Node × Node)
  anchors : Anchors
  rest : List Token

namespace Fields

/-- The fields with one more in front. -/
def cons (key value : Node) (fields : Fields) : Fields :=
  { fields with entries := (key, value) :: fields.entries }

end Fields

/-- The tokens that end a key or a value on lines. -/
def lineEnds : List Token := [.key, .value, .linesEnd]

/-- The rest of a mapping on lines. The second argument bounds the number of fields. -/
def readLines? (handles : Handles) : Nat → Anchors → List Token → Option Fields
  | 0, _, _ => none
  | _, anchors, .linesEnd :: rest => some ⟨[], anchors, rest⟩
  | fields + 1, anchors, .key :: rest => do
    let (key, anchors, rest) ← readNodeBefore? lineEnds handles anchors rest
    let (value, anchors, rest) ← match rest with
      | .value :: rest => readNodeBefore? lineEnds handles anchors rest
      | rest => some (.scalar .empty, anchors, rest)
    (readLines? handles fields anchors rest).map (·.cons key value)
  | _, _, _ => none

/-- The value of a field between braces, behind its key. -/
def readBraceValue? (handles : Handles) (anchors : Anchors) :
    List Token → Option (Node × Anchors × List Token)
  | .value :: rest => readNodeBefore? [.comma, .braceClose] handles anchors rest
  | rest => some (.scalar .empty, anchors, rest)

/-- The field at the front between braces. A node without the mark of a key has no value. -/
def readBraceField? (handles : Handles) (anchors : Anchors) :
    List Token → Option (Node × Node × Anchors × List Token)
  | .key :: rest => do
    let (key, anchors, rest) ←
      readNodeBefore? [.value, .comma, .braceClose] handles anchors rest
    let (value, anchors, rest) ← readBraceValue? handles anchors rest
    some (key, value, anchors, rest)
  | tokens => do
    let (key, anchors, rest) ← readNode? handles anchors tokens
    some (key, .scalar .empty, anchors, rest)

/-- The rest of a mapping between braces. The second argument bounds the number of fields, which
are separated by commas; one more comma may end them. -/
def readBraces? (handles : Handles) : Nat → Anchors → List Token → Option Fields
  | 0, _, _ => none
  | _, anchors, .braceClose :: rest => some ⟨[], anchors, rest⟩
  | fields + 1, anchors, tokens => do
    let (key, value, anchors, rest) ← readBraceField? handles anchors tokens
    match rest with
    | .comma :: rest => (readBraces? handles fields anchors rest).map (·.cons key value)
    | .braceClose :: rest => some ⟨[(key, value)], anchors, rest⟩
    | _ => none

/-! ## Documents -/

/-- The handles that every document knows. -/
def commonHandles : Handles := [("!", Tag.ofText "!"), ("!!", Tag.ofText "tag:yaml.org,2002:")]

/-- The directives at the front, and what follows. -/
def readDirectives : List Token → List Directive × List Token
  | .directive directive :: rest =>
    let (directives, rest) := readDirectives rest
    (directive :: directives, rest)
  | tokens => ([], tokens)

/-- The handles that directives define. There is at most one version, 1.1 or 1.2, and no handle is
defined twice. -/
def handlesOf? : Bool → List Directive → Option Handles
  | _, [] => some []
  | versioned, .version major minor :: rest =>
    if !versioned && major == 1 && (minor == 1 || minor == 2) then handlesOf? true rest else none
  | versioned, .handle name start :: rest => do
    let handles ← handlesOf? versioned rest
    if (handles.lookup name).isSome then none else some ((name, start) :: handles)

/-- A mapping with the properties of the document in front of it. -/
def readRoot? (handles : Handles) (tokens : List Token) : Option Fields := do
  let (properties, rest) := readProperties tokens
  let tag ← resolveTag? handles properties.tag
  match rest with
  | .linesStart :: rest =>
    readLines? handles (rest.length + 1) (Anchors.none.setIf properties.anchor none) rest
  | .braceOpen :: rest =>
    readBraces? handles (rest.length + 1) (Anchors.none.setIf properties.anchor none) rest
  | .scalar _ _ :: _ => none
  | rest =>
    if properties.anchor.isSome || tag.isSome then some ⟨[], .none, rest⟩ else none

/-- The fields of the document at the front. Behind a start marker there may be nothing. -/
def readDocument? (tokens : List Token) : Option Fields := do
  let (directives, rest) := readDirectives tokens
  let handles ← handlesOf? false directives
  let handles := handles ++ commonHandles
  match rest with
  | .documentStart :: rest =>
    match rest with
    | [] | .documentEnd :: _ => some ⟨[], .none, rest⟩
    | rest => readRoot? handles rest
  | rest => if directives.isEmpty then readRoot? handles rest else none

/-- The scalar that a node is. -/
def Anchors.resolve? (anchors : Anchors) : Node → Option Scalar
  | .scalar scalar => some scalar
  | .reference number => (anchors.nodes.lookup number).join

/-- The keys and values of the only document of a text, in order. A text without a document has
none, and so has an empty document. -/
def readFields? (text : String) : Option (List (Scalar × Scalar)) := do
  match ← tokens? text with
  | [] => some []
  | tokens => do
    let fields ← readDocument? tokens
    if fields.rest.all (· == .documentEnd) then
      fields.entries.mapM fun (key, value) => do
        some (← fields.anchors.resolve? key, ← fields.anchors.resolve? value)
    else none

end StackScript.Yaml
