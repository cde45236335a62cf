import Mathlib.Data.List.Forall2
import Mathlib.Data.List.TakeWhile
import Mathlib.Logic.Relation
import StackScript.Proofs.Naming.Declared

/-!
# Normal forms of paths

The normal form of a path consists of its named parts, or of those that the base directory leaves.
The base directory is taken off before the path is cut into parts, character by character: what
counts is whether the path is spelled with that directory in front. A normal form is normalized to
itself, so far as it does not come to lie in the base directory once more.

Letter case, the kind of the separators, repeated separators and parts for the current directory
change no named part of a path.

## Main definitions

* `namedParts`: the parts of a path that say something
* `SpelledInside`: a path has the base directory in front, as it is spelled
* `OnOneSide`: two paths of which both have it in front, or neither
* `Respell`, `Respelled`: spellings of one path
* `Recased`: spellings that differ in letter case and in the kind of separators only

## Main results

* `normalizePath_eq_iff`: normal forms are equal if what remains has the same named parts
* `namedParts_of_spelledInside`: the base directory and what remains make up the path
* `normalizePath_eq_iff_onOneSide`: when two paths with the same named parts have one normal form
* `normalizePath_normalizePath_iff`: when a normal form is normalized to itself
* `Respelled.namedParts_eq`: spellings of one path have the same named parts
-/

namespace StackScript

/-! ## Parts -/

/-- The parts of a path that are neither empty nor the current directory. -/
def namedParts (path : List Char) : List (List Char) := (pathParts path).filter (!isEmptyPart ·)

/-- A part that stands in a normal form. -/
structure IsNamed (part : List Char) : Prop where
  whole : '/' ∉ part
  named : isEmptyPart part = false

theorem pathParts_ne_nil (path : List Char) : pathParts path ≠ [] := by
  cases path with
  | nil => exact List.cons_ne_nil _ _
  | cons c rest =>
    unfold pathParts
    split
    · exact List.cons_ne_nil _ _
    · split <;> exact List.cons_ne_nil _ _

theorem pathParts_append_separator (a b : List Char) :
    pathParts (a ++ '/' :: b) = pathParts a ++ pathParts b := by
  induction a with
  | nil => rfl
  | cons c a ih =>
    rw [List.cons_append, pathParts, pathParts, ih]
    split
    · rfl
    · cases parts : pathParts a with
      | nil => exact absurd parts (pathParts_ne_nil a)
      | cons part others => rfl

/-- A path without separators is one part. -/
theorem pathParts_of_whole {path : List Char} (whole : '/' ∉ path) : pathParts path = [path] := by
  induction path with
  | nil => rfl
  | cons c rest ih =>
    rw [pathParts, if_neg (Ne.symm (List.ne_of_not_mem_cons whole)),
      ih (List.not_mem_of_not_mem_cons whole)]

theorem not_mem_of_mem_pathParts {path part : List Char} (h : part ∈ pathParts path) :
    '/' ∉ part := by
  induction path generalizing part with
  | nil => simp [List.mem_singleton.mp h]
  | cons c rest ih =>
    unfold pathParts at h
    split at h
    · obtain rfl | h := List.mem_cons.mp h
      · exact List.not_mem_nil
      · exact ih h
    case isFalse other =>
      cases parts : pathParts rest with
      | nil => exact absurd parts (pathParts_ne_nil rest)
      | cons first others =>
        rw [parts] at h ih
        obtain rfl | h := List.mem_cons.mp h
        · exact List.not_mem_cons_of_ne_of_not_mem (Ne.symm other) (ih List.mem_cons_self)
        · exact ih (List.mem_cons_of_mem _ h)

theorem isNamed_of_mem_namedParts {path part : List Char} (h : part ∈ namedParts path) :
    IsNamed part := by
  obtain ⟨mem, named⟩ := List.mem_filter.mp h
  exact ⟨not_mem_of_mem_pathParts mem, by simpa using named⟩

theorem namedParts_append_separator (a b : List Char) :
    namedParts (a ++ '/' :: b) = namedParts a ++ namedParts b := by
  rw [namedParts, pathParts_append_separator, List.filter_append, namedParts, namedParts]

@[simp]
theorem namedParts_nil : namedParts [] = [] := rfl

theorem namedParts_separator (rest : List Char) : namedParts ('/' :: rest) = namedParts rest :=
  namedParts_append_separator [] rest

/-! ## Normal forms -/

theorem joinParts_cons (part next : List Char) (rest : List (List Char)) :
    joinParts (part :: next :: rest) = part ++ '/' :: joinParts (next :: rest) := by
  simp [joinParts, List.intercalate]

/-- Parts that are put together come apart again. -/
theorem pathParts_joinParts {parts : List (List Char)} (ne : parts ≠ [])
    (whole : ∀ part ∈ parts, '/' ∉ part) : pathParts (joinParts parts) = parts := by
  induction parts with
  | nil => exact absurd rfl ne
  | cons part rest ih =>
    have first := pathParts_of_whole (whole part List.mem_cons_self)
    cases rest with
    | nil => simpa [joinParts] using first
    | cons next rest =>
      rw [joinParts_cons, pathParts_append_separator, first,
        ih (List.cons_ne_nil _ _) fun p mem => whole p (List.mem_cons_of_mem _ mem)]
      rfl

theorem namedParts_joinParts {parts : List (List Char)} (named : ∀ part ∈ parts, IsNamed part) :
    namedParts (joinParts parts) = parts := by
  cases parts with
  | nil => rfl
  | cons part rest =>
    rw [namedParts, pathParts_joinParts (List.cons_ne_nil _ _) fun p mem => (named p mem).whole,
      List.filter_eq_self]
    intro p mem
    rw [(named p mem).named]
    rfl

theorem toList_normalizePath (base : Option String) (path : String) :
    (normalizePath base path).toList =
      joinParts (namedParts (stripBase base (foldPath path))) := by
  rw [normalizePath, String.toList_ofList, namedParts]

/-- The named parts of a normal form are those that the path has behind the base directory. -/
theorem namedParts_normalizePath (base : Option String) (path : String) :
    namedParts (normalizePath base path).toList = namedParts (stripBase base (foldPath path)) := by
  rw [toList_normalizePath]
  exact namedParts_joinParts fun _ => isNamed_of_mem_namedParts

theorem normalizePath_eq_iff {base base' : Option String} {p q : String} :
    normalizePath base p = normalizePath base' q ↔
      namedParts (stripBase base (foldPath p)) = namedParts (stripBase base' (foldPath q)) := by
  constructor
  · intro same
    rw [← namedParts_normalizePath, same, namedParts_normalizePath]
  · intro same
    rw [← String.toList_inj, toList_normalizePath, toList_normalizePath, same]

/-! ## The base directory -/

/-- Where a part of a path may end: at a separator, or with the path. -/
def EndsPart (rest : List Char) : Prop := rest = [] ∨ ∃ behind, rest = '/' :: behind

theorem relativeTo?_eq_some_iff {directory path rest : List Char} :
    relativeTo? directory path = some rest ↔ path = directory ++ rest ∧ EndsPart rest := by
  unfold relativeTo?
  constructor
  · intro h
    split at h
    case isTrue isPrefix =>
      obtain ⟨behind, rfl⟩ := List.isPrefixOf_iff_prefix.mp isPrefix
      rw [List.drop_left] at h
      split at h <;> cases h
      · exact ⟨rfl, .inl rfl⟩
      · exact ⟨rfl, .inr ⟨_, rfl⟩⟩
    case isFalse => cases h
  · rintro ⟨rfl, ends⟩
    rw [if_pos (List.isPrefixOf_iff_prefix.mpr (List.prefix_append _ _)), List.drop_left]
    obtain rfl | ⟨behind, rfl⟩ := ends <;> rfl

/-- What is cut off a directory are separators. -/
theorem exists_trimSeparators (cs : List Char) :
    ∃ n, cs = trimSeparators cs ++ List.replicate n '/' := by
  refine ⟨(cs.reverse.takeWhile (· == '/')).length, ?_⟩
  have separators : ∀ c ∈ cs.reverse.takeWhile (· == '/'), c = '/' := by
    intro c mem
    simpa using List.mem_takeWhile_imp mem
  conv_lhs => rw [← List.reverse_reverse cs,
    ← List.takeWhile_append_dropWhile (p := (· == '/')) (l := cs.reverse), List.reverse_append,
    List.eq_replicate_of_mem separators, List.reverse_replicate]
  rfl

theorem namedParts_trimSeparators (cs : List Char) :
    namedParts (trimSeparators cs) = namedParts cs := by
  obtain ⟨n, eq⟩ := exists_trimSeparators cs
  have more (m : Nat) : namedParts (List.replicate m '/') = [] := by
    induction m with
    | zero => rfl
    | succ m ih => rw [List.replicate_succ, namedParts_separator, ih]
  conv_rhs => rw [eq]
  cases n with
  | zero => rw [List.replicate_zero, List.append_nil]
  | succ n => rw [List.replicate_succ, namedParts_append_separator, more, List.append_nil]

/-- The path is spelled with the base directory in front. A base directory without any characters
but separators counts for none. -/
def SpelledInside (base : Option String) (path : String) : Prop :=
  ∃ b ∈ base, trimSeparators (foldPath b) ≠ [] ∧
    ∃ rest, foldPath path = trimSeparators (foldPath b) ++ rest ∧ EndsPart rest

instance (base : Option String) (path : String) : Decidable (SpelledInside base path) :=
  decidable_of_iff (∃ b ∈ base, trimSeparators (foldPath b) ≠ [] ∧
      (relativeTo? (trimSeparators (foldPath b)) (foldPath path)).isSome) <| by
    simp only [Option.isSome_iff_exists, relativeTo?_eq_some_iff, SpelledInside]

@[simp]
theorem stripBase_none (path : List Char) : stripBase none path = path := rfl

theorem stripBase_some {b : String} (given : trimSeparators (foldPath b) ≠ []) (path : List Char) :
    stripBase (some b) path = (relativeTo? (trimSeparators (foldPath b)) path).getD path := by
  simp only [stripBase]

/-- The base directory and what the path has behind it make up the path. -/
theorem namedParts_of_spelledInside {base : Option String} {path : String}
    (inside : SpelledInside base path) :
    ∃ b ∈ base, namedParts (foldPath path) =
      namedParts (foldPath b) ++ namedParts (stripBase base (foldPath path)) := by
  obtain ⟨b, rfl, given, rest, eq, ends⟩ := inside
  refine ⟨b, rfl, ?_⟩
  rw [stripBase_some given, relativeTo?_eq_some_iff.mpr ⟨eq, ends⟩, Option.getD_some, eq,
    ← namedParts_trimSeparators (foldPath b)]
  obtain rfl | ⟨behind, rfl⟩ := ends
  · simp
  · rw [namedParts_append_separator, namedParts_separator]

/-- Any other path stays as it is. -/
theorem stripBase_of_not_spelledInside {base : Option String} {path : String}
    (outside : ¬ SpelledInside base path) : stripBase base (foldPath path) = foldPath path := by
  cases base with
  | none => rfl
  | some b =>
    by_cases given : trimSeparators (foldPath b) = []
    · simp only [stripBase, given]
    · rw [stripBase_some given]
      cases found : relativeTo? (trimSeparators (foldPath b)) (foldPath path) with
      | none => rfl
      | some rest =>
        exact absurd ⟨b, rfl, given, rest, relativeTo?_eq_some_iff.mp found⟩ outside

/-- Both paths are spelled with the base directory in front, or neither of them is, or the base
directory has no parts to take off. -/
def OnOneSide (base base' : Option String) (p q : String) : Prop :=
  (SpelledInside base p ↔ SpelledInside base' q) ∨ ∃ b ∈ base, namedParts (foldPath b) = []

/-- If only the first of two paths is cut, it keeps its named parts if there are none to cut. -/
theorem namedParts_cut_iff {base : Option String} {p q : String}
    (path : namedParts (foldPath p) = namedParts (foldPath q)) (inside : SpelledInside base p) :
    namedParts (stripBase base (foldPath p)) = namedParts (foldPath q) ↔
      ∃ b ∈ base, namedParts (foldPath b) = [] := by
  obtain ⟨b, rfl, parts⟩ := namedParts_of_spelledInside inside
  rw [← path, parts, List.self_eq_append_left]
  simp

/-- Paths and base directories with the same named parts have one normal form if the paths are on
one side of the base directories. -/
theorem normalizePath_eq_iff_onOneSide {base base' : Option String} {p q : String}
    (path : namedParts (foldPath p) = namedParts (foldPath q))
    (bases : Option.Rel (fun b c => namedParts (foldPath b) = namedParts (foldPath c)) base base') :
    normalizePath base p = normalizePath base' q ↔ OnOneSide base base' p q := by
  have cut : (∃ b ∈ base, namedParts (foldPath b) = []) ↔
      ∃ b ∈ base', namedParts (foldPath b) = [] := by
    cases bases with
    | none => simp
    | some same => simp [same]
  rw [normalizePath_eq_iff, OnOneSide]
  by_cases hp : SpelledInside base p
  · by_cases hq : SpelledInside base' q
    · -- both lose the same parts
      obtain ⟨b, rfl, parts⟩ := namedParts_of_spelledInside hp
      obtain ⟨c, rfl, parts'⟩ := namedParts_of_spelledInside hq
      obtain ⟨same⟩ := bases
      rw [path, parts', same] at parts
      simp [hp, hq, List.append_cancel_left parts]
    · rw [stripBase_of_not_spelledInside hq, namedParts_cut_iff path hp]
      simp [hp, hq]
  · by_cases hq : SpelledInside base' q
    · rw [stripBase_of_not_spelledInside hp, eq_comm, namedParts_cut_iff path.symm hq, ← cut]
      simp [hp, hq]
    · rw [stripBase_of_not_spelledInside hp, stripBase_of_not_spelledInside hq]
      simp [hp, hq, path]

/-! ## Normal forms, normalized -/

theorem settled_of_mem_foldPath {path : String} {c : Char} (mem : c ∈ foldPath path) :
    Text.Settled c ∧ c ≠ '\\' := by
  refine ⟨Text.settled_of_mem_lowercaseFrom mem, ?_⟩
  rintro rfl
  have swapped := Text.mem_of_mem_lowercaseFrom (by decide) (by decide) mem
  obtain ⟨d, -, same⟩ := List.mem_map.mp swapped
  split at same
  · exact absurd same (by decide)
  case isFalse other => exact other same

/-- A path of settled characters without backslashes stays as it is. -/
theorem foldPath_of_settled {path : String}
    (settled : ∀ c ∈ path.toList, Text.Settled c ∧ c ≠ '\\') : foldPath path = path.toList := by
  have swapped : path.toList.map (fun c => if c = '\\' then '/' else c) = path.toList := by
    conv_rhs => rw [← List.map_id path.toList]
    exact List.map_congr_left fun c mem => if_neg (settled c mem).2
  rw [foldPath, swapped]
  exact Text.lowercaseFrom_of_settled (fun c mem => (settled c mem).1) _

theorem foldPath_normalizePath (base : Option String) (path : String) :
    foldPath (normalizePath base path) = (normalizePath base path).toList := by
  refine foldPath_of_settled fun c mem => ?_
  rw [normalizePath, String.toList_ofList] at mem
  obtain rfl | ⟨part, part_mem, mem⟩ := mem_of_mem_joinParts mem
  · decide +kernel
  · exact settled_of_mem_foldPath
      (mem_of_mem_stripBase (mem_of_mem_pathParts (List.mem_of_mem_filter part_mem) mem))

/-- The parts of a normal form are named, unless it is empty. -/
theorem isNamed_of_mem_pathParts_normalizePath {base : Option String} {path : String}
    {part : List Char} (ne : (normalizePath base path).toList ≠ [])
    (mem : part ∈ pathParts (normalizePath base path).toList) : IsNamed part := by
  rw [toList_normalizePath] at ne mem
  rw [pathParts_joinParts] at mem
  · exact isNamed_of_mem_namedParts mem
  · intro none
    rw [none] at ne
    exact ne rfl
  · exact fun p p_mem => (isNamed_of_mem_namedParts p_mem).whole

/-- A normal form that lies in the base directory, as it is spelled, names a part of it. -/
theorem namedParts_ne_nil_of_normalizePath {base : Option String} {path : String}
    (inside : SpelledInside base (normalizePath base path)) :
    ¬ ∃ b ∈ base, namedParts (foldPath b) = [] := by
  obtain ⟨b, rfl, given, rest, eq, ends⟩ := inside
  rintro ⟨_, ⟨⟩, none⟩
  rw [foldPath_normalizePath] at eq
  rw [← namedParts_trimSeparators] at none
  -- the first part of the base directory is the first one of the normal form too
  cases parts : pathParts (trimSeparators (foldPath b)) with
  | nil => exact pathParts_ne_nil _ parts
  | cons first others =>
    have first_mem : first ∈ pathParts (trimSeparators (foldPath b)) :=
      parts ▸ List.mem_cons_self
    have mem : first ∈ pathParts (normalizePath (some b) path).toList := by
      rw [eq]
      obtain rfl | ⟨behind, rfl⟩ := ends
      · rwa [List.append_nil]
      · rw [pathParts_append_separator]
        exact List.mem_append_left _ first_mem
    have ne : (normalizePath (some b) path).toList ≠ [] := by
      rw [eq]
      exact List.append_ne_nil_of_left_ne_nil given _
    have named : first ∈ namedParts (trimSeparators (foldPath b)) :=
      List.mem_filter.mpr
        ⟨first_mem, by rw [(isNamed_of_mem_pathParts_normalizePath ne mem).named]; rfl⟩
    rw [none] at named
    cases named

theorem normalizePath_none_normalizePath (base : Option String) (path : String) :
    normalizePath none (normalizePath base path) = normalizePath base path := by
  rw [normalizePath_eq_iff, foldPath_normalizePath]
  exact namedParts_normalizePath base path

/-- A normal form is normalized again to itself unless the base directory comes in front of it once
more. -/
theorem normalizePath_normalizePath_iff (base : Option String) (path : String) :
    normalizePath base (normalizePath base path) = normalizePath base path ↔
      ¬ SpelledInside base (normalizePath base path) := by
  conv_lhs =>
    rhs
    rw [← normalizePath_none_normalizePath]
  rw [normalizePath_eq_iff, stripBase_none]
  by_cases inside : SpelledInside base (normalizePath base path)
  · rw [namedParts_cut_iff rfl inside]
    exact iff_of_false (namedParts_ne_nil_of_normalizePath inside) (not_not_intro inside)
  · rw [stripBase_of_not_spelledInside inside]
    exact iff_of_true rfl inside

/-- A normal form starts with no separator, so it does not lie in a base directory that does. -/
theorem not_spelledInside_of_absolute {base : Option String}
    (absolute : ∀ b ∈ base, (foldPath b).head? = some '/') (path : String) :
    ¬ SpelledInside base (normalizePath base path) := by
  rintro ⟨b, given, ne, rest, eq, -⟩
  obtain ⟨n, trimmed⟩ := exists_trimSeparators (foldPath b)
  have first := absolute b given
  rw [trimmed, List.head?_append_of_ne_nil _ ne] at first
  obtain ⟨behind, start⟩ := List.head?_eq_some_iff.mp first
  rw [foldPath_normalizePath, start, List.cons_append] at eq
  have named : IsNamed [] := isNamed_of_mem_pathParts_normalizePath (by rw [eq]; simp)
    (by rw [eq]; exact List.mem_cons_self)
  exact absurd named.named (by decide)

/-! ## How a path is spelled -/

/-- A separator of either kind. -/
def IsSeparator (c : Char) : Prop := c = '/' ∨ c = '\\'

instance (c : Char) : Decidable (IsSeparator c) :=
  inferInstanceAs (Decidable (c = '/' ∨ c = '\\'))

/-- The characters are one letter up to case, or both separators. -/
def SpellsAlike (c d : Char) : Prop := c.toLower = d.toLower ∨ (IsSeparator c ∧ IsSeparator d)

instance (c d : Char) : Decidable (SpellsAlike c d) :=
  inferInstanceAs (Decidable (c.toLower = d.toLower ∨ (IsSeparator c ∧ IsSeparator d)))

/-- One change in how a path is spelled that leaves alone what it starts with: another case of a
letter or kind of separator, a separator more, or a part more for the current directory, behind a
separator or at the end. -/
inductive Respell : List Char → List Char → Prop
  | character {c d} (before after) (alike : SpellsAlike c d) :
    Respell (before ++ c :: after) (before ++ d :: after)
  | repeated {c d} (before after) (first : IsSeparator c) (second : IsSeparator d) :
    Respell (before ++ c :: after) (before ++ c :: d :: after)
  | current {c d} (before after) (first : IsSeparator c) (second : IsSeparator d) :
    Respell (before ++ c :: after) (before ++ c :: '.' :: d :: after)
  | currentLast {c} (path) (ne : path ≠ []) (separator : IsSeparator c) :
    Respell path (path ++ [c, '.'])

/-- Some changes lead from one spelling to the other, each made or undone. -/
def Respelled (p q : String) : Prop := Relation.EqvGen Respell p.toList q.toList

/-- Character by character, the spellings differ only in the case of letters and in the kind of
separators. -/
def Recased (p q : String) : Prop := List.Forall₂ SpellsAlike p.toList q.toList

instance (p q : String) : Decidable (Recased p q) :=
  inferInstanceAs (Decidable (List.Forall₂ SpellsAlike p.toList q.toList))

/-- Spellings that differ in letter case and in the kind of separators are spellings of one path:
the characters are changed one after the other. -/
theorem Recased.respelled {p q : String} (recased : Recased p q) : Respelled p q := by
  have onwards {cs ds : List Char} (alike : List.Forall₂ SpellsAlike cs ds) (before : List Char) :
      Relation.EqvGen Respell (before ++ cs) (before ++ ds) := by
    induction alike generalizing before with
    | nil => exact .refl _
    | @cons c d cs ds first _ ih =>
      have rest := ih (before ++ [d])
      rw [List.append_assoc, List.append_assoc] at rest
      exact .trans _ _ _ (.rel _ _ (.character before cs first)) rest
  exact onwards recased []

/-- A character of ASCII as it stands in a normal form. -/
def foldChar (c : Char) : Char := (if c = '\\' then '/' else c).toLower

theorem foldPath_of_isAscii {path : String} (ascii : Text.IsAscii path) :
    foldPath path = path.toList.map foldChar := by
  rw [foldPath, Text.lowercaseFrom_of_isAscii, List.map_map]
  · rfl
  · intro c mem
    obtain ⟨d, d_mem, rfl⟩ := List.mem_map.mp mem
    split
    · decide
    · exact ascii d d_mem

theorem IsSeparator.foldChar_eq {c : Char} (separator : IsSeparator c) : foldChar c = '/' := by
  obtain rfl | rfl := separator <;> rfl

theorem foldChar_of_ne {c : Char} (other : c ≠ '\\') : foldChar c = c.toLower := by
  rw [foldChar, if_neg other]

theorem SpellsAlike.foldChar_eq {c d : Char} (alike : SpellsAlike c d) :
    foldChar c = foldChar d := by
  obtain same | ⟨first, second⟩ := alike
  · by_cases backslash : d = '\\'
    · subst backslash
      have first : c = '\\' := Text.eq_of_toLower_eq (by decide) same
      rw [first]
    · have other : c ≠ '\\' := by
        rintro rfl
        exact backslash (Text.eq_of_toLower_eq (by decide) same.symm)
      rw [foldChar_of_ne other, foldChar_of_ne backslash, same]
  · rw [first.foldChar_eq, second.foldChar_eq]

theorem Respell.namedParts_eq {p q : List Char} (step : Respell p q) :
    namedParts (p.map foldChar) = namedParts (q.map foldChar) := by
  cases step with
  | character before after alike =>
    -- folding no longer tells the two characters apart
    rw [List.map_append, List.map_append, List.map_cons, List.map_cons, alike.foldChar_eq]
  | repeated before after first second =>
    simp only [List.map_append, List.map_cons, first.foldChar_eq, second.foldChar_eq,
      namedParts_append_separator, namedParts_separator]
  | current before after first second =>
    simp only [List.map_append, List.map_cons, first.foldChar_eq, second.foldChar_eq,
      namedParts_append_separator]
    -- the part between the two separators is the current directory, and is passed over
    exact congrArg (_ ++ ·) (namedParts_append_separator ['.'] _).symm
  | currentLast path ne separator =>
    simp only [List.map_append, List.map_cons, separator.foldChar_eq, namedParts_append_separator]
    exact (List.append_nil _).symm

/-- How a path is spelled changes none of its named parts. -/
theorem Respelled.namedParts_eq {p q : String} (hp : Text.IsAscii p) (hq : Text.IsAscii q)
    (spelled : Respelled p q) : namedParts (foldPath p) = namedParts (foldPath q) := by
  rw [foldPath_of_isAscii hp, foldPath_of_isAscii hq]
  unfold Respelled at spelled
  generalize p.toList = cs at spelled
  generalize q.toList = ds at spelled
  induction spelled with
  | rel _ _ step => exact step.namedParts_eq
  | refl => rfl
  | symm _ _ _ ih => exact ih.symm
  | trans _ _ _ _ _ first second => exact first.trans second

theorem Recased.foldPath_eq {p q : String} (hp : Text.IsAscii p) (hq : Text.IsAscii q)
    (recased : Recased p q) : foldPath p = foldPath q := by
  rw [foldPath_of_isAscii hp, foldPath_of_isAscii hq]
  unfold Recased at recased
  generalize p.toList = cs at recased
  generalize q.toList = ds at recased
  induction recased with
  | nil => rfl
  | cons alike _ ih => rw [List.map_cons, List.map_cons, alike.foldChar_eq, ih]

end StackScript
