/-!
# The characters of a YAML text

A text is read as the list of its characters with their places. Every end of line is one character
of that list, and behind the last character stands an end mark, so that there is always a character
to look at.

## Main definitions

* `Glyph`: a character and its place
* `glyphs?`: the characters of a text; none if one of them is not allowed
-/

namespace StackScript.Yaml

/-- A character of a text, with the line and the column that it stands in, both counted from 0. -/
structure Glyph where
  char : Char
  line : Nat
  column : Nat
  deriving Repr, DecidableEq

/-! ## Kinds of characters -/

/-- The character behind the end of a text, which cannot stand inside one. -/
def endMark : Char := Char.ofNat 0

/-- An end of line. The separators of lines and of paragraphs stay themselves; all other ends of
lines are read as line feeds. -/
def isBreak (c : Char) : Bool := c == '\n' || c.toNat == 0x2028 || c.toNat == 0x2029

/-- A character between the words of a line. -/
def isGap (c : Char) : Bool := c == ' ' || c == '\t'

/-- A character between words. -/
def isSpace (c : Char) : Bool := isGap c || isBreak c

/-- The line ends here. -/
def endsLine (c : Char) : Bool := isBreak c || c == endMark

/-- A word ends here. -/
def endsWord (c : Char) : Bool := isGap c || endsLine c

/-- A character of a name: a letter or digit of ASCII, `_` or `-`. -/
def isNameChar (c : Char) : Bool := c.isAlphanum || c == '_' || c == '-'

/-- A character with a meaning between braces. -/
def isFlowMark (c : Char) : Bool :=
  c == ',' || c == '[' || c == ']' || c == '{' || c == '}'

/-- The mark that may open a line, to tell the encoding of the text. -/
def byteOrderMark : Char := Char.ofNat 0xFEFF

/-- A character that may stand in a text: no control character but tabs and ends of lines, and no
code point that is set aside. -/
def isAllowed (c : Char) : Bool :=
  c == '\t' || c == '\n' || c == '\r' || (' ' ≤ c && c ≤ '~') || c.toNat == 0x85 ||
    (0xA0 ≤ c.toNat && c.toNat ≠ 0xFFFE && c.toNat ≠ 0xFFFF)

/-! ## Places -/

/-- A text in which every end of line is one character. -/
def joinBreaks : List Char → List Char
  | '\r' :: '\n' :: rest => '\n' :: joinBreaks rest
  | c :: rest => (if c == '\r' || c.toNat == 0x85 then '\n' else c) :: joinBreaks rest
  | [] => []

/-- The characters of a text that starts at a place, and the end mark. -/
def locate (line column : Nat) : List Char → List Glyph
  | [] => [⟨endMark, line, column⟩]
  | c :: rest =>
    ⟨c, line, column⟩ :: if isBreak c then locate (line + 1) 0 rest else locate line (column + 1) rest

def glyphs? (text : String) : Option (List Glyph) :=
  if text.toList.all isAllowed then some (locate 0 0 (joinBreaks text.toList)) else none

/-! ## Looking ahead -/

def peek (gs : List Glyph) : Char :=
  match gs with
  | g :: _ => g.char
  | [] => endMark

/-- The character some places ahead. -/
def peekAt (n : Nat) (gs : List Glyph) : Char := peek (gs.drop n)

def columnOf (gs : List Glyph) : Nat :=
  match gs with
  | g :: _ => g.column
  | [] => 0

def lineOf (gs : List Glyph) : Nat :=
  match gs with
  | g :: _ => g.line
  | [] => 0

/-- The characters at the front that are as asked. -/
def takeChars (p : Char → Bool) (gs : List Glyph) : List Char :=
  (gs.takeWhile fun g => p g.char).map (·.char)

/-- The text behind the characters at the front that are as asked. -/
def skipChars (p : Char → Bool) (gs : List Glyph) : List Glyph := gs.dropWhile fun g => p g.char

/-- A mark of three equal characters opens the line. -/
def opensLine (mark : Char) (gs : List Glyph) : Bool :=
  columnOf gs == 0 && peek gs == mark && peekAt 1 gs == mark && peekAt 2 gs == mark &&
    endsWord (peekAt 3 gs)

/-- A document starts or ends on this line. -/
def isAtMarker (gs : List Glyph) : Bool := opensLine '-' gs || opensLine '.' gs

/-- The next line, if only gaps and a comment are left of this one. -/
def endLine? (gs : List Glyph) : Option (List Glyph) :=
  let gs := skipChars isGap gs
  let gs := if peek gs == '#' then skipChars (!endsLine ·) gs else gs
  match gs with
  | [] => some []
  | g :: rest => if isBreak g.char then some rest else if g.char == endMark then some gs else none

end StackScript.Yaml
