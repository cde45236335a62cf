import StackScript.Yaml.Scalar
import StackScript.Yaml.Tag

/-!
# Tokens of YAML

Only what can occur in a mapping of scalars is read: a sequence, a mapping inside another one, and
text that breaks the rules of the notation are refused alike.

The key of a mapping needs no mark of its own, so what may turn out to be one is remembered until
the colon behind it, if there is one, is met. It has to be on the line of the colon, at most 1024
characters before it.

## Main definitions

* `Token`: the pieces of a text
* `Lexer`: what is known between two tokens
* `tokens?`: the tokens of a text
-/

namespace StackScript.Yaml

/-- A piece of a text. -/
inductive Token where
  | directive (directive : Directive)
  | documentStart
  | documentEnd
  /-- The start of a mapping on lines; nothing is written for it. -/
  | linesStart
  /-- The end of a mapping on lines; nothing is written for it. -/
  | linesEnd
  | braceOpen
  | braceClose
  | comma
  | key
  | value
  | reference (name : String)
  | anchor (name : String)
  | tag (handle : String) (rest : Tag)
  | scalar (style : Style) (text : String)
  deriving Repr, DecidableEq

/-- A place where a key may start. -/
structure KeyCandidate where
  /-- Nothing but a key can stand here. -/
  isRequired : Bool
  /-- The number of tokens before it. -/
  index : Nat
  line : Nat
  column : Nat
  deriving Repr, DecidableEq

/-- What is known between two tokens. -/
structure Lexer where
  tokens : Array Token
  /-- The column of the keys of the mapping on lines, while there is one. -/
  indent : Option Nat
  inBraces : Bool
  candidate : Option KeyCandidate
  /-- The next token may start a key. -/
  keyAllowed : Bool

namespace Lexer

/-- Nothing read yet. -/
def start : Lexer := ⟨#[], none, false, none, true⟩

/-- One more token. -/
def push (lexer : Lexer) (token : Token) : Lexer :=
  { lexer with tokens := lexer.tokens.push token }

/-- Tokens before the one of a number. -/
def insert (lexer : Lexer) (index : Nat) (tokens : List Token) : Lexer :=
  { lexer with
    tokens := lexer.tokens.extract 0 index ++ tokens.toArray ++
      lexer.tokens.extract index lexer.tokens.size }

/-- The least column of a line that goes on with the value of a field. -/
def floor (lexer : Lexer) : Nat :=
  match lexer.indent with
  | none => 0
  | some column => column + 1

/-! ## Keys and mappings on lines -/

/-- Forgets the place where a key may start, unless there has to be one. -/
def dropCandidate? (lexer : Lexer) : Option Lexer :=
  if lexer.candidate.any (·.isRequired) then none else some { lexer with candidate := none }

/-- Forgets the place where a key may start if it is too far away, unless there has to be one. -/
def dropStale? (lexer : Lexer) (gs : List Glyph) : Option Lexer :=
  if lexer.candidate.any fun c => c.line < lineOf gs || c.column + 1024 < columnOf gs then
    lexer.dropCandidate?
  else some lexer

/-- A key may start here. -/
def noteCandidate? (lexer : Lexer) (gs : List Glyph) : Option Lexer :=
  if lexer.keyAllowed then do
    let required := !lexer.inBraces && lexer.indent == some (columnOf gs)
    let lexer ← lexer.dropCandidate?
    some { lexer with
      candidate := some ⟨required, lexer.tokens.size, lineOf gs, columnOf gs⟩ }
  else some lexer

/-- A key at a column, in front of the token of a number: the first one starts a mapping on lines.
A key that is further in than the keys before it would start another mapping. -/
def openLines? (lexer : Lexer) (column index : Nat) : Option Lexer :=
  if lexer.inBraces then some lexer
  else
    match lexer.indent with
    | none => some { lexer.insert index [.linesStart] with indent := some column }
    | some indent => if indent < column then none else some lexer

/-- The end of the mapping on lines. -/
def closeLines (lexer : Lexer) : Lexer :=
  if lexer.inBraces || lexer.indent.isNone then lexer
  else { lexer.push .linesEnd with indent := none }

/-- A line that starts at a column ends a mapping that is further in. -/
def closeLinesBefore (lexer : Lexer) (column : Nat) : Lexer :=
  if lexer.indent.any (column < ·) then lexer.closeLines else lexer

/-! ## Single tokens -/

/-- A directive, and a mark between documents, end all mappings on lines. -/
def endContent? (lexer : Lexer) : Option Lexer := do
  some { ← lexer.closeLines.dropCandidate? with keyAllowed := false }

/-- A mark with nothing behind it that belongs to it. -/
def mark? (lexer : Lexer) (token : Token) (keyAllowed : Bool) : Option Lexer := do
  some { (← lexer.dropCandidate?).push token with keyAllowed }

/-- An opening brace. Only a document can be a mapping. -/
def openBrace? (lexer : Lexer) : Option Lexer :=
  if lexer.inBraces || lexer.indent.isSome then none
  else
    some { lexer.push .braceOpen with inBraces := true, candidate := none, keyAllowed := true }

def closeBrace? (lexer : Lexer) : Option Lexer := do
  some { ← lexer.mark? .braceClose false with inBraces := false }

/-- The mark of a key that needs one. -/
def keyMark? (lexer : Lexer) (gs : List Glyph) : Option Lexer := do
  if !lexer.inBraces && !lexer.keyAllowed then none
  else
    let lexer ← lexer.openLines? (columnOf gs) lexer.tokens.size
    lexer.mark? .key (!lexer.inBraces)

/-- The colon between a key and a value. Behind a key without a mark it makes that one a key. -/
def valueMark? (lexer : Lexer) (gs : List Glyph) : Option Lexer := do
  match lexer.candidate with
  | some candidate =>
    let lexer := lexer.insert candidate.index [.key]
    let lexer ← lexer.openLines? candidate.column candidate.index
    some { lexer.push .value with candidate := none, keyAllowed := false }
  | none =>
    if lexer.inBraces then some { lexer.push .value with keyAllowed := false }
    else if !lexer.keyAllowed then none
    else
      let lexer ← lexer.openLines? (columnOf gs) lexer.tokens.size
      some { lexer.push .value with keyAllowed := true }

/-- A token of a node, which may turn out to be the start of a key. -/
def node? (lexer : Lexer) (gs : List Glyph) (token : Token) : Option Lexer := do
  some { (← lexer.noteCandidate? gs).push token with keyAllowed := false }

/-- A block of lines. -/
def block? (lexer : Lexer) (gs : List Glyph) : Option (Lexer × List Glyph) := do
  let folded := peek gs == '>'
  let (text, rest) ← blockScalar? folded (lexer.indent.getD 0) lexer.floor (gs.drop 1)
  some (← lexer.mark? (.scalar (if folded then .other else .literal) text) true, rest)

/-- A plain scalar. A line that ended behind it may have been followed by the start of a key. -/
def plain? (lexer : Lexer) (gs : List Glyph) : Option (Lexer × List Glyph) := do
  let (text, newLine, rest) ← plainScalar? lexer.inBraces lexer.floor gs
  some ({ ← lexer.node? gs (.scalar .plain text) with keyAllowed := newLine }, rest)

/-! ## The next token -/

/-- The text behind blanks, comments and ends of lines, and whether a key may start there. Tabs
do not stand where a key may start. The second argument bounds the number of lines. -/
def skipSpace (inBraces : Bool) : Nat → Bool → List Glyph → Bool × List Glyph
  | 0, keyAllowed, gs => (keyAllowed, gs)
  | lines + 1, keyAllowed, gs =>
    let gs := if columnOf gs == 0 && peek gs == byteOrderMark then gs.drop 1 else gs
    let gs := skipChars (fun c => c == ' ' || (c == '\t' && (inBraces || !keyAllowed))) gs
    let gs := if peek gs == '#' then skipChars (!endsLine ·) gs else gs
    if isBreak (peek gs) then skipSpace inBraces lines (keyAllowed || !inBraces) (gs.drop 1)
    else (keyAllowed, gs)

/-- A plain scalar may start like this. -/
def startsPlain (inBraces : Bool) (gs : List Glyph) : Bool :=
  let c := peek gs
  let isMark := c == '-' || c == '?' || c == ':'
  if isMark then !endsWord (peekAt 1 gs) && (c == '-' || !inBraces)
  else !endsWord c && !isFlowMark c && !"#&*!|>'\"%@`".toList.contains c

/-- The token at the front, which is not the end of the text, and what follows it. -/
def readToken? (lexer : Lexer) (gs : List Glyph) : Option (Lexer × List Glyph) :=
  let c := peek gs
  let rest := gs.drop 1
  let isMark := lexer.inBraces || endsWord (peekAt 1 gs)
  if c == '%' && columnOf gs == 0 then do
    let lexer ← lexer.endContent?
    let (directive, rest) ← readDirective? rest
    some (lexer.push (.directive directive), rest)
  else if opensLine '-' gs then do some ((← lexer.endContent?).push .documentStart, gs.drop 3)
  else if opensLine '.' gs then do some ((← lexer.endContent?).push .documentEnd, gs.drop 3)
  else if c == '{' then do some (← lexer.openBrace?, rest)
  else if c == '}' then do some (← lexer.closeBrace?, rest)
  else if c == ',' then do some (← lexer.mark? .comma true, rest)
  else if c == '?' && isMark then do some (← lexer.keyMark? gs, rest)
  else if c == ':' && isMark then do some (← lexer.valueMark? gs, rest)
  else if c == '*' then do
    let (name, rest) ← readAnchor? rest
    some (← lexer.node? gs (.reference name), rest)
  else if c == '&' then do
    let (name, rest) ← readAnchor? rest
    some (← lexer.node? gs (.anchor name), rest)
  else if c == '!' then do
    let (handle, tag, rest) ← readTag? lexer.inBraces gs
    some (← lexer.node? gs (.tag handle tag), rest)
  else if (c == '|' || c == '>') && !lexer.inBraces then lexer.block? gs
  else if c == '\'' || c == '"' then do
    let (text, rest) ← quotedScalar? c rest
    some (← lexer.node? gs (.scalar .other text), rest)
  else if startsPlain lexer.inBraces gs then lexer.plain? gs
  else none

/-- The tokens of a text. The first argument bounds their number. -/
def run? : Nat → Lexer → List Glyph → Option (List Token)
  | 0, _, _ => none
  | steps + 1, lexer, gs => do
    let (keyAllowed, gs) := skipSpace lexer.inBraces (gs.length + 1) lexer.keyAllowed gs
    let lexer ← { lexer with keyAllowed }.dropStale? gs
    let lexer := lexer.closeLinesBefore (columnOf gs)
    if peek gs == endMark then some (← lexer.endContent?).tokens.toList
    else
      let (lexer, rest) ← lexer.readToken? gs
      run? steps lexer rest

end Lexer

def tokens? (text : String) : Option (List Token) := do
  let gs ← glyphs? text
  Lexer.start.run? (gs.length + 1) gs

end StackScript.Yaml
