import StackScript.Text.Basic
import StackScript.Yaml.Glyph

/-!
# Tags, anchors and directives of YAML

A node can carry a tag, which says what it is, and an anchor, a name under which it can be referred
to. Directives in front of a document state the version of the notation and give names, called
handles, to the beginnings of tags.

## Main definitions

* `Tag`: a tag, spelled out
* `readTag?`, `readAnchor?`: the properties of nodes
* `Directive`, `readDirective?`: directives
-/

namespace StackScript.Yaml

/-- A tag, as octets: a tag can spell single octets by number. -/
abbrev Tag := List UInt8

/-- The tag that a text spells. -/
def Tag.ofText (text : String) : Tag := text.toUTF8.toList

/-! ## The parts of tags -/

/-- A character of a tag that stands for itself. Some need the tag to be delimited. -/
def isTagChar (delimited : Bool) (c : Char) : Bool :=
  isNameChar c || ";/?:@&=+$.!~*'()".toList.contains c ||
    (delimited && (c == ',' || c == '[' || c == ']'))

/-- The number of octets of the character that starts with an octet. -/
def octetCount? (first : Nat) : Option Nat :=
  if first < 0x80 then some 1
  else if first / 0x20 = 6 then some 2
  else if first / 0x10 = 14 then some 3
  else if first / 8 = 30 then some 4
  else none

/-- Octets by number, `%` and two digits each: as many as stated, or as the first of them says. -/
def readOctets? : Option Nat → List Glyph → Option (List UInt8 × List Glyph)
  | some 0, gs => some ([], gs)
  | more, mark :: high :: low :: rest => do
    let octet ← Text.hexNumber? [high.char, low.char]
    let left ← match more with
      | none => octetCount? octet
      | some n => if octet / 0x40 = 2 then some n else none
    if mark.char != '%' then none
    else
      let (octets, rest) ← readOctets? (some (left - 1)) rest
      some (octet.toUInt8 :: octets, rest)
  | _, _ => none

/-- The octets of a tag, and what follows. The first argument bounds the number of steps; each
takes a character at least. -/
def tagOctets? (delimited : Bool) : Nat → List Glyph → Option (List UInt8 × List Glyph)
  | 0, gs => some ([], gs)
  | steps + 1, gs =>
    if peek gs == '%' then do
      let (octets, rest) ← readOctets? none gs
      let (more, rest) ← tagOctets? delimited steps rest
      some (octets ++ more, rest)
    else if isTagChar delimited (peek gs) then do
      let (more, rest) ← tagOctets? delimited steps (gs.drop 1)
      some ((peek gs).toNat.toUInt8 :: more, rest)
    else some ([], gs)

/-- The octets of a tag, and what follows; a tag ends at a zero octet, whatever is behind it. Some
tags must not be empty. -/
def tagText? (delimited mayBeEmpty : Bool) (gs : List Glyph) : Option (Tag × List Glyph) := do
  let (octets, rest) ← tagOctets? delimited gs.length gs
  if octets.isEmpty && !mayBeEmpty then none
  else some (octets.takeWhile (· != 0), rest)

/-- A handle: `!`, a name and another `!`, or only a part of that; and what follows it. -/
def readHandle? (gs : List Glyph) : Option (String × List Glyph) :=
  if peek gs != '!' then none
  else
    let name := takeChars isNameChar (gs.drop 1)
    let rest := gs.drop (name.length + 1)
    if peek rest == '!' then some (String.ofList ('!' :: name ++ ['!']), rest.drop 1)
    else some (String.ofList ('!' :: name), rest)

/-- The name that a handle without its second `!` turns out to be the start of. -/
def isWholeHandle (handle : String) : Bool := handle.length > 1 && handle.endsWith "!"

/-- The handle and the rest of the tag at the front, and what follows. A tag that is spelled out
has no handle, and neither has the tag `!`. -/
def readTagParts? (gs : List Glyph) : Option (String × Tag × List Glyph) :=
  if peekAt 1 gs == '<' then do
    let (tag, rest) ← tagText? true false (gs.drop 2)
    if peek rest == '>' then some ("", tag, rest.drop 1) else none
  else do
    let (handle, rest) ← readHandle? gs
    if isWholeHandle handle then
      let (tag, rest) ← tagText? false false rest
      some (handle, tag, rest)
    else
      let (tag, rest) ← tagText? false true rest
      let tag := Tag.ofText (handle.drop 1).toString ++ tag
      if tag.isEmpty then some ("", Tag.ofText "!", rest) else some ("!", tag, rest)

/-- The tag at the front, by handle and rest, and what follows, which is a space, or a comma
between braces. -/
def readTag? (inBraces : Bool) (gs : List Glyph) : Option (String × Tag × List Glyph) := do
  let (handle, tag, rest) ← readTagParts? gs
  if endsWord (peek rest) || (inBraces && peek rest == ',') then some (handle, tag, rest) else none

/-! ## Anchors -/

/-- The name behind the mark of an anchor or a reference, and what follows. -/
def readAnchor? (gs : List Glyph) : Option (String × List Glyph) :=
  let name := takeChars isNameChar gs
  let rest := gs.drop name.length
  if !name.isEmpty && (endsWord (peek rest) || "?:,]\x7d%@`".toList.contains (peek rest)) then
    some (String.ofList name, rest)
  else none

/-! ## Directives -/

/-- A line in front of a document. -/
inductive Directive where
  | version (major minor : Nat)
  | handle (name : String) (start : Tag)
  deriving Repr, DecidableEq

/-- A number of at most nine digits, and what follows. -/
def readVersionPart? (gs : List Glyph) : Option (Nat × List Glyph) :=
  let digits := takeChars Char.isDigit gs
  if digits.isEmpty || 9 < digits.length then none
  else some (digits.foldl (fun n c => 10 * n + (c.toNat - 48)) 0, gs.drop digits.length)

/-- The version that a directive states, and what follows. -/
def readVersion? (gs : List Glyph) : Option (Directive × List Glyph) := do
  let (major, gs) ← readVersionPart? (skipChars isGap gs)
  if peek gs != '.' then none
  else
    let (minor, gs) ← readVersionPart? (gs.drop 1)
    some (.version major minor, gs)

/-- The handle that a directive explains, and what follows. -/
def readHandleDirective? (gs : List Glyph) : Option (Directive × List Glyph) := do
  let (handle, gs) ← readHandle? (skipChars isGap gs)
  if !(handle == "!" || isWholeHandle handle) || !isGap (peek gs) then none
  else
    let (start, gs) ← tagText? true false (skipChars isGap gs)
    if endsWord (peek gs) then some (.handle handle start, gs) else none

/-- The directive behind its mark, and the next line. -/
def readDirective? (gs : List Glyph) : Option (Directive × List Glyph) := do
  let name := takeChars isNameChar gs
  let rest := gs.drop name.length
  if !endsWord (peek rest) then none
  else
    let (directive, rest) ←
      if name == "YAML".toList then readVersion? rest
      else if name == "TAG".toList then readHandleDirective? rest
      else none
    some (directive, ← endLine? rest)

end StackScript.Yaml
