import StackScript.Text.Basic
import StackScript.Yaml.Glyph

/-!
# Scalars of YAML

A scalar is a piece of text in one of three notations: plain, between quotes, or as a block of
lines. Inside plain and quoted scalars the ends of lines are folded: one becomes a blank, and of
several the first is dropped.

## Main definitions

* `plainScalar?`: plain scalars
* `quotedScalar?`: scalars between single or double quotes
* `blockScalar?`: blocks of lines, literal or folded
-/

namespace StackScript.Yaml

/-- The notations of scalars, as far as the meaning of a scalar depends on them. -/
inductive Style where
  | plain
  | literal
  /-- Between quotes, or a folded block. -/
  | other
  deriving Repr, DecidableEq

/-- What the space between two words of a scalar stands for. -/
def foldSpace (space : List Char) : List Char :=
  match space.filter isBreak with
  | [] => space
  | ['\n'] => [' ']
  | '\n' :: more => more
  | breaks => breaks

/-! ## Plain scalars -/

/-- The word of a plain scalar at the front, and what follows it. A colon before a mark of the
braces is refused between braces. -/
def plainWord? (inBraces : Bool) : List Glyph → Option (List Char × List Glyph)
  | [] => some ([], [])
  | g :: rest =>
    let next := peek rest
    if endsWord g.char then some ([], g :: rest)
    else if inBraces && g.char == ':' && (isFlowMark next || next == '?') then none
    else if g.char == ':' && endsWord next then some ([], g :: rest)
    else if inBraces && isFlowMark g.char then some ([], g :: rest)
    else (plainWord? inBraces rest).map fun (word, rest) => (g.char :: word, rest)

/-- A tab stands in the indentation of a line, before a column. -/
def indentsByTab (floor : Nat) (space : List Glyph) : Bool :=
  (space.dropWhile fun g => !isBreak g.char).any fun g => g.char == '\t' && g.column < floor

/-- The words of a plain scalar, what follows them, and whether a line ended before that. The
first argument bounds the number of words, `space` is what stands for the space before the next
word, and `newLine` says whether a line ended in that space. -/
def plainWords? (inBraces : Bool) (floor : Nat) :
    Nat → List Char → Bool → List Glyph → Option (List Char × Bool × List Glyph)
  | 0, _, _, _ => none
  | words + 1, space, newLine, gs =>
    if isAtMarker gs || peek gs == '#' then some ([], newLine, gs)
    else do
      let (word, rest) ← plainWord? inBraces gs
      let between := rest.takeWhile fun g => isSpace g.char
      let behind := rest.drop between.length
      if word.isEmpty then some ([], newLine, rest)
      else if between.isEmpty then some (space ++ word, false, rest)
      else if indentsByTab floor between then none
      else
        let newLine := between.any fun g => isBreak g.char
        if !inBraces && columnOf behind < floor then some (space ++ word, newLine, behind)
        else
          let space' := foldSpace (between.map (·.char))
          let (text, newLine, rest) ← plainWords? inBraces floor words space' newLine behind
          some (space ++ word ++ text, newLine, rest)

/-- A plain scalar, what follows it, and whether a line ended before that. Outside braces it goes
on only on lines that are indented to the column `floor` at least. -/
def plainScalar? (inBraces : Bool) (floor : Nat) (gs : List Glyph) :
    Option (String × Bool × List Glyph) := do
  let (text, newLine, rest) ← plainWords? inBraces floor (gs.length + 1) [] false gs
  some (String.ofList text, newLine, rest)

/-! ## Quoted scalars -/

/-- The code point that an escape of one letter stands for. -/
def escaped? (c : Char) : Option Nat :=
  [('0', 0), ('a', 7), ('b', 8), ('t', 9), ('\t', 9), ('n', 10), ('v', 11), ('f', 12), ('r', 13),
    ('e', 27), (' ', 32), ('"', 34), ('/', 47), ('\\', 92), ('N', 0x85), ('_', 0xA0), ('L', 0x2028),
    ('P', 0x2029)].lookup c

/-- The number of hexadecimal digits behind the letter of an escape. -/
def escapeWidth? (c : Char) : Option Nat := [('x', 2), ('u', 4), ('U', 8)].lookup c

/-- The character that the escape behind a backslash stands for, and what follows it. -/
def readEscape? (gs : List Glyph) : Option (Char × List Glyph) :=
  match gs with
  | [] => none
  | g :: rest =>
    match escaped? g.char with
    | some code => some (Char.ofNat code, rest)
    | none => do
      let width ← escapeWidth? g.char
      let digits := (rest.take width).map (·.char)
      let code ← Text.hexNumber? digits
      if digits.length = width ∧ code.isValidChar then some (Char.ofNat code, rest.drop width)
      else none

/-- The text up to a closing quote, and what follows it. The first argument bounds the number of
steps; each takes a character at least. No document starts or ends between quotes. -/
def quotedText? (quote : Char) : Nat → List Glyph → Option (List Char × List Glyph)
  | 0, _ => none
  | _, [] => none
  | steps + 1, g :: rest =>
    if g.char == endMark then none
    else if isSpace g.char then do
      let space := takeChars isSpace (g :: rest)
      let behind := rest.drop (space.length - 1)
      if isAtMarker behind then none
      else
        let (text, left) ← quotedText? quote steps behind
        some (foldSpace space ++ text, left)
    else if g.char == quote then
      -- A single quote inside single quotes is written twice.
      if quote == '\'' && peek rest == '\'' then do
        let (text, left) ← quotedText? quote steps (rest.drop 1)
        some ('\'' :: text, left)
      else some ([], rest)
    else if quote == '"' && g.char == '\\' then
      if isBreak (peek rest) then do
        -- An escaped end of line stands for nothing; empty lines behind it stay.
        let space := takeChars isSpace (rest.drop 1)
        let behind := rest.drop (space.length + 1)
        if isAtMarker behind then none
        else
          let (text, left) ← quotedText? quote steps behind
          some (space.filter isBreak ++ text, left)
      else do
        let (c, behind) ← readEscape? rest
        let (text, left) ← quotedText? quote steps behind
        some (c :: text, left)
    else do
      let (text, left) ← quotedText? quote steps rest
      some (g.char :: text, left)

/-- A scalar behind its opening quote, and what follows it. -/
def quotedScalar? (quote : Char) (gs : List Glyph) : Option (String × List Glyph) := do
  let (text, rest) ← quotedText? quote (gs.length + 1) gs
  some (String.ofList text, rest)

/-! ## Blocks of lines -/

/-- What becomes of the ends of lines at the end of a block. -/
inductive Chomping where
  | strip
  /-- The last line keeps its end; empty lines are dropped. -/
  | clip
  | keep
  deriving Repr, DecidableEq

/-- The mark for what becomes of the end of a block. -/
def readChomping? (gs : List Glyph) : Option (Chomping × List Glyph) :=
  if peek gs == '+' then some (.keep, gs.drop 1)
  else if peek gs == '-' then some (.strip, gs.drop 1)
  else none

/-- The indentation that a block states, 0 if it states none. Stating 0 is refused. -/
def readIncrement? (gs : List Glyph) : Option (Nat × List Glyph) :=
  if peek gs == '0' then none
  else if (peek gs).isDigit then some ((peek gs).toNat - 48, gs.drop 1)
  else some (0, gs)

/-- The marks behind the mark of a block, in either order. -/
def readBlockHead? (gs : List Glyph) : Option (Chomping × Nat × List Glyph) :=
  match readChomping? gs with
  | some (chomping, gs) => do
    let (increment, gs) ← readIncrement? gs
    some (chomping, increment, ← endLine? gs)
  | none => do
    let (increment, gs) ← readIncrement? gs
    let (chomping, gs) := (readChomping? gs).getD (.clip, gs)
    some (chomping, increment, ← endLine? gs)

/-- The ends of empty lines, the deepest column that blanks reach in them, and the line that
follows. An indentation of 0 is one that is not known yet. Tabs do not indent a line. -/
def emptyLines? (indent : Nat) : Nat → List Glyph → Option (List Char × Nat × List Glyph)
  | deepest, [] => some ([], deepest, [])
  | deepest, g :: rest =>
    let deepest := max deepest g.column
    let isIndentation := indent == 0 || g.column < indent
    if isIndentation && g.char == ' ' then emptyLines? indent deepest rest
    else if isIndentation && g.char == '\t' then none
    else if isBreak g.char then
      (emptyLines? indent deepest rest).map fun (breaks, deepest, rest) =>
        (g.char :: breaks, deepest, rest)
    else some ([], deepest, g :: rest)

/-- What stands for the end of a line in front of a line of text. In a folded block it is a blank,
or nothing before empty lines; lines that start with a gap are not folded. -/
def foldLine (folded : Bool) (ended empty : List Char) (besideGap : Bool) : List Char :=
  if folded && ended == ['\n'] && !besideGap then (if empty.isEmpty then [' '] else []) else ended

/-- The lines of a block, and what follows it. The first argument bounds the number of lines;
`ended` and `empty` are the end of the line before and the ends of the empty lines behind it, and
`startedWithGap` says how the line before starts. -/
def blockLines? (folded : Bool) (chomping : Chomping) (indent : Nat) :
    Nat → List Char → List Char → Bool → List Glyph → Option (List Char × List Glyph)
  | 0, _, _, _, _ => none
  | lines + 1, ended, empty, startedWithGap, gs =>
    if columnOf gs == indent && peek gs != endMark then do
      let startsWithGap := isGap (peek gs)
      let behind := skipChars (!endsLine ·) gs
      let ended' := (behind.take 1).filterMap fun g => if isBreak g.char then some g.char else none
      let (empty', _, rest) ← emptyLines? indent 0 (behind.drop ended'.length)
      let (text, rest) ← blockLines? folded chomping indent lines ended' empty' startsWithGap rest
      some (foldLine folded ended empty (startedWithGap || startsWithGap) ++ empty ++
        takeChars (!endsLine ·) gs ++ text, rest)
    else
      match chomping with
      | .strip => some ([], gs)
      | .clip => some (ended, gs)
      | .keep => some (ended ++ empty, gs)

/-- A block behind its mark, and what follows it. Its indentation is the stated one beyond that
around it, else the one of its first line, which is at least `floor` and 1. -/
def blockScalar? (folded : Bool) (around floor : Nat) (gs : List Glyph) :
    Option (String × List Glyph) := do
  let (chomping, increment, gs) ← readBlockHead? gs
  let stated := if increment = 0 then 0 else around + increment
  let (empty, deepest, rest) ← emptyLines? stated 0 gs
  let indent := if stated = 0 then max deepest (max floor 1) else stated
  let (text, rest) ← blockLines? folded chomping indent (rest.length + 1) [] empty false rest
  some (String.ofList text, rest)

end StackScript.Yaml
