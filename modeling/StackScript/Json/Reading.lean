import StackScript.Json
import StackScript.Text.Basic

/-!
# Reading JSON

A whole number of 64 bits, signed or not, is read as an integer and every other number as the
nearest double. Numbers beyond the doubles, lone surrogates, control characters inside strings and
documents of too many levels are refused.

## Main definitions

* `Json.read?`: the document that a text spells
-/

namespace StackScript.Json

/-- The characters that may stand between tokens. -/
def isBlank (c : Char) : Bool := c == ' ' || c == '\t' || c == '\n' || c == '\r'

/-- The text behind blanks. -/
def skipBlanks (cs : List Char) : List Char := cs.dropWhile isBlank

/-! ## Strings -/

/-- The character that a backslash and a letter stand for. -/
def escaped? (c : Char) : Option Nat :=
  [('n', 10), ('t', 9), ('r', 13), ('b', 8), ('f', 12), ('"', 34), ('\\', 92), ('/', 47)].lookup c

/-- The codes of a string up to its closing quote: those of its characters, and the code units of
numbered escapes. -/
def readCodes : List Char → Option (List Nat × List Char)
  | '"' :: rest => some ([], rest)
  | '\\' :: 'u' :: a :: b :: c :: d :: rest =>
    match Text.hexNumber? [a, b, c, d], readCodes rest with
    | some code, some (codes, rest) => some (code :: codes, rest)
    | _, _ => none
  | '\\' :: c :: rest =>
    match escaped? c, readCodes rest with
    | some code, some (codes, rest) => some (code :: codes, rest)
    | _, _ => none
  | c :: rest =>
    if c.toNat < 0x20 then none
    else (readCodes rest).map fun (codes, rest) => (c.toNat :: codes, rest)
  | [] => none

/-- The first half of a character beyond 16 bits. -/
def isHighHalf (code : Nat) : Bool := 0xD800 ≤ code && code < 0xDC00

/-- The second half of a character beyond 16 bits. -/
def isLowHalf (code : Nat) : Bool := 0xDC00 ≤ code && code < 0xE000

/-- The characters of codes; a half without its other half is refused. -/
def joinCodes : List Nat → Option (List Char)
  | [] => some []
  | high :: low :: rest =>
    if isHighHalf high then
      if isLowHalf low then
        let code := 0x10000 + (high - 0xD800) * 0x400 + (low - 0xDC00)
        (joinCodes rest).map (Char.ofNat code :: ·)
      else none
    else if isLowHalf high then none
    else (joinCodes (low :: rest)).map (Char.ofNat high :: ·)
  | [code] => if isHighHalf code || isLowHalf code then none else some [Char.ofNat code]

/-- A string behind its opening quote. -/
def readString (cs : List Char) : Option (String × List Char) :=
  match readCodes cs with
  | none => none
  | some (codes, rest) => (joinCodes codes).map fun chars => (String.ofList chars, rest)

/-! ## Numbers -/

/-- The digits at the front of a text, and what follows. -/
def spanDigits (cs : List Char) : List Char × List Char :=
  (cs.takeWhile Char.isDigit, cs.dropWhile Char.isDigit)

/-- A sign and at least one digit. -/
def readExponent (cs : List Char) : Option (List Char × List Char) :=
  let (sign, cs) := match cs with
    | '+' :: rest => (['+'], rest)
    | '-' :: rest => (['-'], rest)
    | cs => ([], cs)
  let (digits, rest) := spanDigits cs
  if digits.isEmpty then none else some (sign ++ digits, rest)

/-- The fraction and the exponent of a number, each of which may be missing. -/
def readTail (cs : List Char) : Option (List Char × List Char) := do
  let (fraction, cs) ← match cs with
    | '.' :: rest =>
      let (digits, rest) := spanDigits rest
      if digits.isEmpty then none else some ('.' :: digits, rest)
    | cs => some ([], cs)
  let (exponent, cs) ← match cs with
    | c :: rest =>
      if c == 'e' || c == 'E' then
        (readExponent rest).map fun (exponent, rest) => (c :: exponent, rest)
      else some ([], cs)
    | [] => some ([], [])
  some (fraction ++ exponent, cs)

/-- The double that a number spells. -/
def doubleOf? (text : List Char) : Option Json :=
  match Number.readDouble? (String.ofList text) with
  | some d =>
    match Number.magnitude d with
    | .finite .. => some (.double d)
    | _ => none
  | none => none

/-- The number of a sign, digits, and what follows them. A whole zero with a sign is a double,
because an integer would lose the sign. -/
def numberOf? (isNegative : Bool) (digits tail : List Char) : Option Json :=
  let n := Nat.ofDigitChars 10 digits 0
  let text := (if isNegative then ['-'] else []) ++ digits ++ tail
  if !tail.isEmpty then doubleOf? text
  else if isNegative then
    if 0 < n ∧ n ≤ Nat.pow 2 63 then some (.int (-n)) else doubleOf? text
  else if n < Nat.pow 2 64 then some (.int n) else doubleOf? text

/-- A number. Its whole part has no superfluous zero. -/
def readNumber (cs : List Char) : Option (Json × List Char) :=
  let (isNegative, cs) := match cs with
    | '-' :: rest => (true, rest)
    | cs => (false, cs)
  let (digits, cs) := spanDigits cs
  if digits.isEmpty || (digits.length > 1 && digits.head? == some '0') then none
  else match readTail cs with
    | none => none
    | some (tail, rest) => (numberOf? isNegative digits tail).map fun number => (number, rest)

/-! ## Documents -/

mutual

/-- A value. The first argument bounds the depth of the reading. -/
def readValue : Nat → List Char → Option (Json × List Char)
  | 0, _ => none
  | depth + 1, cs =>
    match skipBlanks cs with
    | 'n' :: 'u' :: 'l' :: 'l' :: rest => some (.null, rest)
    | 't' :: 'r' :: 'u' :: 'e' :: rest => some (.bool true, rest)
    | 'f' :: 'a' :: 'l' :: 's' :: 'e' :: rest => some (.bool false, rest)
    | '"' :: rest => (readString rest).map fun (s, rest) => (.string s, rest)
    | '[' :: rest =>
      match skipBlanks rest with
      | ']' :: rest => some (.array [], rest)
      | rest => (readItems depth rest).map fun (items, rest) => (.array items, rest)
    | '\x7b' :: rest =>
      match skipBlanks rest with
      | '\x7d' :: rest => some (.object [], rest)
      | rest => (readMembers depth rest).map fun (members, rest) => (.object members, rest)
    | cs => readNumber cs

/-- The items of an array up to its end. -/
def readItems : Nat → List Char → Option (List Json × List Char)
  | 0, _ => none
  | depth + 1, cs =>
    match readValue depth cs with
    | none => none
    | some (item, rest) =>
      match skipBlanks rest with
      | ',' :: rest => (readItems depth rest).map fun (items, rest) => (item :: items, rest)
      | ']' :: rest => some ([item], rest)
      | _ => none

/-- The members of an object up to its end. -/
def readMembers : Nat → List Char → Option (List (String × Json) × List Char)
  | 0, _ => none
  | depth + 1, cs =>
    match skipBlanks cs with
    | '"' :: rest =>
      match readString rest with
      | none => none
      | some (name, rest) =>
        match skipBlanks rest with
        | ':' :: rest =>
          match readValue depth rest with
          | none => none
          | some (value, rest) =>
            match skipBlanks rest with
            | ',' :: rest =>
              (readMembers depth rest).map fun (members, rest) => ((name, value) :: members, rest)
            | '\x7d' :: rest => some ([(name, value)], rest)
            | _ => none
        | _ => none
    | _ => none

end

mutual

/-- The number of levels of arrays and objects inside each other. -/
def levels : Json → Nat
  | .array items => levelsOfItems items + 1
  | .object members => levelsOfMembers members + 1
  | _ => 0

/-- The most levels of an item. -/
def levelsOfItems : List Json → Nat
  | [] => 0
  | item :: rest => max item.levels (levelsOfItems rest)

/-- The most levels of a member. -/
def levelsOfMembers : List (String × Json) → Nat
  | [] => 0
  | (_, value) :: rest => max value.levels (levelsOfMembers rest)

end

/-- The number of levels that a document may have. -/
def levelLimit : Nat := 127

/-- The document that a text spells. Reading goes at most two calls deeper for each character. -/
def read? (text : String) : Option Json :=
  let cs := text.toList
  match readValue (2 * cs.length + 2) cs with
  | none => none
  | some (json, rest) =>
    if (skipBlanks rest).isEmpty && json.levels ≤ levelLimit then some json else none

end StackScript.Json
