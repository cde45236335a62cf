import Mathlib.Data.List.Basic
import StackScript.Declaration.Entry
import StackScript.Proofs.Text.Case

/-!
# Keys of bodies, read back

The key of a body is a text, `owner::name@file#item` with the owner and the place left out where
there are none. If neither the owner nor the name contains one of the marks between the parts, the
parts can be read back from the key: the first `@` ends the name, and the first `:` in front of it
ends the owner. In the place, the last `#` ends the file, whatever the path contains.

## Main results

* `BodyName.parts_of_key_eq`: bodies with equal keys have equal owners, names and places, all three
  up to letter case
* `foldCase_normalizePath`: the normal form of a path has no letter case left
* `Placement.eq_of_site_eq`: conditional declarations with one place have one file and one number
-/

namespace StackScript

variable {c : Char} {path : List Char}

/-! ## Paths -/

theorem mem_of_mem_pathParts {part : List Char} (part_mem : part ∈ pathParts path) (mem : c ∈ part) :
    c ∈ path := by
  induction path generalizing part with
  | nil =>
    rw [pathParts, List.mem_singleton] at part_mem
    exact absurd mem (by simp [part_mem])
  | cons d rest ih =>
    unfold pathParts at part_mem
    split at part_mem
    · obtain rfl | part_mem := List.mem_cons.mp part_mem
      · cases mem
      · exact List.mem_cons_of_mem _ (ih part_mem mem)
    · split at part_mem
      case h_1 first others split_rest =>
        obtain rfl | part_mem := List.mem_cons.mp part_mem
        · obtain rfl | mem := List.mem_cons.mp mem
          · exact List.mem_cons_self
          · exact List.mem_cons_of_mem _ (ih (by rw [split_rest]; exact List.mem_cons_self) mem)
        · exact List.mem_cons_of_mem _
            (ih (by rw [split_rest]; exact List.mem_cons_of_mem _ part_mem) mem)
      case h_2 =>
        rw [List.mem_singleton.mp part_mem, List.mem_singleton] at mem
        exact mem ▸ List.mem_cons_self

theorem mem_of_mem_joinParts {parts : List (List Char)} (mem : c ∈ joinParts parts) :
    c = '/' ∨ ∃ part ∈ parts, c ∈ part := by
  induction parts with
  | nil => cases mem
  | cons part rest ih =>
    cases rest with
    | nil => exact .inr ⟨part, List.mem_cons_self, by simpa [joinParts] using mem⟩
    | cons next rest =>
      have eq : joinParts (part :: next :: rest) = part ++ '/' :: joinParts (next :: rest) := by
        simp [joinParts, List.intercalate]
      rw [eq, List.mem_append, List.mem_cons] at mem
      obtain mem | rfl | mem := mem
      · exact .inr ⟨part, List.mem_cons_self, mem⟩
      · exact .inl rfl
      · exact (ih mem).imp_right fun ⟨p, p_mem, mem⟩ => ⟨p, List.mem_cons_of_mem _ p_mem, mem⟩

theorem mem_of_relativeTo? {directory rest : List Char} (h : relativeTo? directory path = some rest)
    (mem : c ∈ rest) : c ∈ path := by
  unfold relativeTo? at h
  split at h
  · split at h
    · cases h
      cases mem
    case h_2 dropped =>
      cases h
      exact List.mem_of_mem_drop (dropped ▸ mem)
    · cases h
  · cases h

theorem mem_of_mem_stripBase {base : Option String} (mem : c ∈ stripBase base path) : c ∈ path := by
  cases base with
  | none => exact mem
  | some base =>
    simp only [stripBase] at mem
    split at mem
    · exact mem
    · cases found : relativeTo? (trimSeparators (foldPath base)) path with
      | none => simpa [found] using mem
      | some rest => exact mem_of_relativeTo? found (by simpa [found] using mem)

/-- The normal form of a path has no letter case left. -/
theorem foldCase_normalizePath (base : Option String) (path : String) :
    Text.foldCase (normalizePath base path) = normalizePath base path := by
  rw [← String.toList_inj, Text.toList_foldCase]
  conv_rhs => rw [← List.map_id (normalizePath base path).toList]
  refine List.map_congr_left fun c mem => ?_
  rw [normalizePath, String.toList_ofList] at mem
  obtain rfl | ⟨part, part_mem, mem⟩ := mem_of_mem_joinParts mem
  · decide
  · have folded : c ∈ foldPath path :=
      mem_of_mem_stripBase (mem_of_mem_pathParts (List.mem_of_mem_filter part_mem) mem)
    exact (Text.settled_of_mem_lowercaseFrom folded).isFolded

/-! ## Names -/

/-- The first mark of a text is where it parts in two. -/
theorem eq_of_append_cons_eq {α : Type} {mark : α} {s t rest rest' : List α} (hs : mark ∉ s)
    (ht : mark ∉ t) (h : s ++ mark :: rest = t ++ mark :: rest') : s = t ∧ rest = rest' := by
  induction s generalizing t with
  | nil =>
    cases t with
    | nil => exact ⟨rfl, (List.cons.inj h).2⟩
    | cons d t => exact absurd (List.cons.inj h).1 (List.ne_of_not_mem_cons ht)
  | cons c s ih =>
    cases t with
    | nil => exact absurd (List.cons.inj h).1.symm (List.ne_of_not_mem_cons hs)
    | cons d t =>
      obtain ⟨rfl, tails⟩ := List.cons.inj h
      obtain ⟨rfl, rests⟩ :=
        ih (List.not_mem_of_not_mem_cons hs) (List.not_mem_of_not_mem_cons ht) tails
      exact ⟨rfl, rests⟩

/-- The name has neither of the marks that stand between the parts of a key. -/
def Unmarked (name : String) : Prop := '@' ∉ name.toList ∧ ':' ∉ name.toList

instance (name : String) : Decidable (Unmarked name) :=
  inferInstanceAs (Decidable ('@' ∉ name.toList ∧ ':' ∉ name.toList))

theorem unmarked_foldCase {name : String} : Unmarked (Text.foldCase name) ↔ Unmarked name := by
  simp only [Unmarked, Text.mem_foldCase '@' name (by decide),
    Text.mem_foldCase ':' name (by decide)]

namespace BodyName

variable {a b : BodyName}

/-- Neither the owner nor the name has one of the marks. -/
structure IsUnmarked (body : BodyName) : Prop where
  owner : ∀ owner ∈ body.owner, Unmarked owner.text
  name : Unmarked body.name

/-- What stands in the key in front of the place. -/
def stem (body : BodyName) : List Char :=
  match body.owner with
  | some owner => owner.key.toList ++ ':' :: ':' :: (Text.foldCase body.name).toList
  | none => (Text.foldCase body.name).toList

/-- What the place adds to the key. -/
def tag : Option String → List Char
  | some site => '@' :: (Text.foldCase site).toList
  | none => []

theorem toList_key (body : BodyName) : body.key.toList = body.stem ++ tag body.site := by
  obtain ⟨owner, name, site⟩ := body
  cases owner <;> cases site <;> simp [key, stem, tag]

theorem IsUnmarked.not_mem_stem {body : BodyName} (unmarked : body.IsUnmarked) :
    '@' ∉ body.stem := by
  have name := (unmarked_foldCase.mpr unmarked.name).1
  unfold stem
  split
  case h_1 owner eq =>
    have owner := (unmarked_foldCase.mpr (unmarked.owner owner eq)).1
    simpa [QualifiedName.key] using ⟨owner, name⟩
  case h_2 => exact name

/-- The first `@` of a text is where its two halves meet. -/
theorem tag_inj {s t : List Char} {site site' : Option String} (hs : '@' ∉ s) (ht : '@' ∉ t)
    (h : s ++ tag site = t ++ tag site') :
    s = t ∧ site.map Text.foldCase = site'.map Text.foldCase := by
  cases site with
  | none =>
    cases site' with
    | none => simpa [tag] using h
    | some site' => exact absurd (h ▸ by simp [tag]) (show '@' ∉ s ++ tag none by simpa [tag])
  | some site =>
    cases site' with
    | none => exact absurd (h ▸ by simp [tag]) (show '@' ∉ t ++ tag none by simpa [tag])
    | some site' =>
      obtain ⟨stems, sites⟩ := eq_of_append_cons_eq hs ht h
      exact ⟨stems, congrArg some (String.toList_inj.mp sites)⟩

/-- The first `:` of a stem ends the owner. -/
theorem parts_of_stem_eq (ha : a.IsUnmarked) (hb : b.IsUnmarked) (h : a.stem = b.stem) :
    a.owner.map QualifiedName.key = b.owner.map QualifiedName.key ∧
      Text.foldCase a.name = Text.foldCase b.name := by
  obtain ⟨owner, name, site⟩ := a
  obtain ⟨owner', name', site'⟩ := b
  have hname := (unmarked_foldCase.mpr ha.name).2
  have hname' := (unmarked_foldCase.mpr hb.name).2
  cases owner with
  | none =>
    cases owner' with
    | none => exact ⟨rfl, String.toList_inj.mp h⟩
    | some owner' =>
      refine absurd ?_ hname
      rw [show (Text.foldCase name).toList = _ from h]
      simp [stem]
  | some owner =>
    cases owner' with
    | none =>
      refine absurd ?_ hname'
      rw [show (Text.foldCase name').toList = _ from h.symm]
      simp [stem]
    | some owner' =>
      have howner := (unmarked_foldCase.mpr (ha.owner owner rfl)).2
      have howner' := (unmarked_foldCase.mpr (hb.owner owner' rfl)).2
      obtain ⟨owners, rest⟩ := eq_of_append_cons_eq howner howner' h
      refine ⟨congrArg some (String.toList_inj.mp owners), String.toList_inj.mp ?_⟩
      simpa using rest

/-- The parts of a body's name can be read back from the key, up to letter case. -/
theorem parts_of_key_eq (ha : a.IsUnmarked) (hb : b.IsUnmarked) (h : a.key = b.key) :
    a.owner.map QualifiedName.key = b.owner.map QualifiedName.key ∧
      Text.foldCase a.name = Text.foldCase b.name ∧
      a.site.map Text.foldCase = b.site.map Text.foldCase := by
  have h := congrArg String.toList h
  rw [toList_key, toList_key] at h
  obtain ⟨stems, sites⟩ := tag_inj ha.not_mem_stem hb.not_mem_stem h
  obtain ⟨owners, names⟩ := parts_of_stem_eq ha hb stems
  exact ⟨owners, names, sites⟩

end BodyName

/-! ## Places -/

namespace Placement

theorem site?_of_conditional {placement : Placement} (h : placement.conditional = true) :
    placement.site? = some (placement.file ++ "#" ++ toString placement.origin.item) := by
  rw [site?, if_pos h]

theorem toList_toString (n : Nat) : (toString n).toList = Nat.toDigits 10 n := by
  simp [toString, Nat.repr]

theorem eq_of_toList_toString_eq {m n : Nat} (h : (toString m).toList = (toString n).toList) :
    m = n := by
  rw [toList_toString, toList_toString] at h
  simpa using congrArg (Nat.ofDigitChars 10 · 0) h

theorem isFolded_of_mem_toString {n : Nat} {c : Char} (h : c ∈ (toString n).toList) :
    Text.IsFolded c ∧ c ≠ '#' := by
  rw [toList_toString] at h
  have digit : c.isDigit = true := Nat.isDigit_of_mem_toDigits (by decide) (by decide) h
  obtain ⟨low, high⟩ : 0x30 ≤ c.toNat ∧ c.toNat ≤ 0x39 := by
    simpa [Char.isDigit, UInt32.le_iff_toNat_le] using digit
  refine ⟨Text.isFolded_of_toNat (.inl (by omega)), ?_⟩
  rintro rfl
  exact absurd low (by decide)

/-- The last `#` of a tag ends the file, whatever characters the path contains. -/
theorem eq_of_site_eq {a b : Placement} {base : Option String} {path path' : String}
    (ha : a.file = normalizePath base path) (hb : b.file = normalizePath base path')
    (conditional : a.conditional = true) (conditional' : b.conditional = true)
    (h : a.site?.map Text.foldCase = b.site?.map Text.foldCase) :
    a.file = b.file ∧ a.origin.item = b.origin.item := by
  rw [site?_of_conditional conditional, site?_of_conditional conditional'] at h
  have h := congrArg (·.toList.reverse) (Option.some.inj h)
  have digits (n : Nat) : (toString n).toList.map Char.toLower = (toString n).toList := by
    conv_rhs => rw [← List.map_id (toString n).toList]
    exact List.map_congr_left fun c mem => (isFolded_of_mem_toString mem).1
  have files (file : String) (folded : Text.foldCase file = file) :
      file.toList.map Char.toLower = file.toList := by
    rw [← Text.toList_foldCase, folded]
  simp only [Text.toList_foldCase, String.toList_append, List.map_append, List.reverse_append,
    digits, files a.file (ha ▸ foldCase_normalizePath base path),
    files b.file (hb ▸ foldCase_normalizePath base path')] at h
  have apart (n : Nat) : '#' ∉ (toString n).toList.reverse := fun mem =>
    (isFolded_of_mem_toString (List.mem_reverse.mp mem)).2 rfl
  obtain ⟨items, rest⟩ := eq_of_append_cons_eq (apart _) (apart _) h
  exact ⟨String.toList_inj.mp (List.reverse_injective rest),
    eq_of_toList_toString_eq (List.reverse_injective items)⟩

end Placement

end StackScript
