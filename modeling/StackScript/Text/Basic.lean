import StackScript.Text.HiddenTable
import StackScript.Text.LetterTable

/-!
# Letter case, blanks, hexadecimal digits and quoted text

Names of the script language are compared without regard to the case of ASCII letters; paths are
compared in the full lower case of Unicode.

## Main definitions

* `foldCase`, `equalIgnoringCase`: ASCII letters only
* `lowercase`: every letter, a capital sigma by its place in the word
* `isBlank`: the White_Space characters of Unicode
* `trim`: a text without the blanks around it
* `hexDigit?`, `hexNumber?`: the values of a digit and of a row of digits
* `hexadecimal`, `hexadecimalOf`: the digits of a number, as few as needed or as many as given
* `quote`: a text as it stands in a message
-/

namespace StackScript.Text

/-! ## Letter case -/

/-- The text with its ASCII capitals in lower case. -/
def foldCase (s : String) : String := s.map Char.toLower

/-- Two texts are equal up to the case of ASCII letters. -/
def equalIgnoringCase (a b : String) : Bool := foldCase a == foldCase b

/-- A character lies in one of the ranges, each a first code point and how many there are. -/
def inRanges (ranges : List (Nat × Nat)) (c : Char) : Bool :=
  ranges.any fun (first, count) => first ≤ c.toNat && c.toNat < first + count

namespace LowercaseRun

/-- The run lists the character. -/
def lists (run : LowercaseRun) (c : Char) : Bool :=
  run.first ≤ c.toNat && c.toNat ≤ run.first + run.width &&
    (c.toNat - run.first) % run.stride == 0

end LowercaseRun

/-- The lower case form of one character, whatever stands around it. -/
def lowercaseChar (c : Char) : List Char :=
  if c.toNat < 0x80 then [c.toLower]
  else if c.toNat = 0x130 then ['i', Char.ofNat 0x307]
  else match lowercaseRuns.find? (·.lists c) with
    | some run => [Char.ofNat (run.target + (c.toNat - run.first))]
    | none => [c]

/-- A character that has a case. -/
def isCased (c : Char) : Bool := inRanges casedRanges c

/-- A character that is passed over when the case of its neighbours is looked up. -/
def isCaseIgnorable (c : Char) : Bool := inRanges caseIgnorableRanges c

/-- The nearest character that is not case-ignorable has a case. -/
def meetsCased (cs : List Char) : Bool :=
  match cs.dropWhile isCaseIgnorable with
  | c :: _ => isCased c
  | [] => false

/-- The lower case form of a text, given the characters before it, nearest first: a capital sigma
after a cased character and before none takes the form it has at the end of a word. -/
def lowercaseFrom (before : List Char) : List Char → List Char
  | [] => []
  | c :: rest =>
    if c = 'Σ' then
      (if meetsCased before && !meetsCased rest then 'ς' else 'σ') :: lowercaseFrom (c :: before) rest
    else lowercaseChar c ++ lowercaseFrom (c :: before) rest

/-- The lower case form of a text. -/
def lowercase (s : String) : String := String.ofList (lowercaseFrom [] s.toList)

/-! ## Blanks, digits and quotes -/

/-- The White_Space characters of Unicode. -/
def isBlank (c : Char) : Bool :=
  let n := c.toNat
  (0x09 ≤ n && n ≤ 0x0d) || n == 0x20 || n == 0x85 || n == 0xa0 || n == 0x1680 ||
    (0x2000 ≤ n && n ≤ 0x200a) || n == 0x2028 || n == 0x2029 || n == 0x202f || n == 0x205f ||
    n == 0x3000

/-- A list of characters without the blanks at its two ends. -/
def trimBlanks (cs : List Char) : List Char :=
  ((cs.dropWhile isBlank).reverse.dropWhile isBlank).reverse

/-- A text without the blanks at its two ends. -/
def trim (s : String) : String := String.ofList (trimBlanks s.toList)

/-- The value of a hexadecimal digit of either case. -/
def hexDigit? (c : Char) : Option Nat :=
  if '0' ≤ c ∧ c ≤ '9' then some (c.toNat - 48)
  else if 'a' ≤ c ∧ c ≤ 'f' then some (c.toNat - 87)
  else if 'A' ≤ c ∧ c ≤ 'F' then some (c.toNat - 55)
  else none

/-- The value of a row of hexadecimal digits. -/
def hexNumber? (cs : List Char) : Option Nat :=
  (cs.mapM hexDigit?).map fun digits => digits.foldl (fun n d => n * 16 + d) 0

/-- The lower case hexadecimal digits of a number. -/
def hexadecimal (n : Nat) : String := String.ofList (Nat.toDigits 16 n)

/-- The last hexadecimal digits of a number, as many as given. -/
def hexadecimalOf (width n : Nat) : String :=
  String.ofList ((List.range width).reverse.map fun i => (n >>> (4 * i) % 16).digitChar)

/-! ## Quoted text

A quoted text is between double quotes, with the quote, the backslash and every character that would
not show written as an escape. -/

/-- The form of one character inside quotes. -/
def quoteChar (c : Char) : String :=
  if c = '"' then "\\\""
  else if c = '\\' then "\\\\"
  else if c = '\n' then "\\n"
  else if c = '\r' then "\\r"
  else if c = '\t' then "\\t"
  else if c.toNat = 0 then "\\0"
  else if 0x20 ≤ c.toNat && c.toNat < 0x7f then c.toString
  else if inRanges hiddenRanges c then "\\u\x7b" ++ hexadecimal c.toNat ++ "\x7d"
  else c.toString

def quote (s : String) : String := "\"" ++ String.join (s.toList.map quoteChar) ++ "\""

end StackScript.Text
