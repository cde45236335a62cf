import StackScript.Text.Basic

/-!
# Letter case

The lower case form of a text has no letter left that lower case would change: no run of the table
of capitals leads to a capital, and a sigma is a capital only before its form is chosen. So the form
of the form is the form itself. An ASCII text is taken letter by letter.

## Main definitions

* `IsFolded`: a character that is no capital of ASCII
* `LowercaseRun.avoids`: the forms of a run are no capitals of another one
* `Settled`: a character that is its own lower case form
* `IsAscii`: a text of ASCII characters

## Main results

* `mem_foldCase`: marks stay when ASCII capitals are folded, and none is added
* `settled_of_mem_lowercaseFrom`, `lowercaseFrom_of_settled`: lower case leaves nothing to change,
  and what leaves nothing to change is in lower case
* `mem_of_mem_lowercaseFrom`: marks come from nowhere but the text
* `lowercaseFrom_of_isAscii`: the lower case form of an ASCII text
-/

namespace StackScript.Text

variable {before cs : List Char} {c d mark : Char} {run : LowercaseRun}

/-! ## ASCII letters -/

/-- The character is no capital of ASCII. -/
def IsFolded (c : Char) : Prop := c.toLower = c

/-- A capital goes up by 32, and every other character stays. -/
theorem toLower_cases (c : Char) :
    (0x41 ≤ c.toNat ∧ c.toNat ≤ 0x5A ∧ c.toLower.toNat = c.toNat + 0x20) ∨
      ((c.toNat < 0x41 ∨ 0x5A < c.toNat) ∧ c.toLower = c) := by
  unfold Char.toLower
  split
  case isTrue upper =>
    obtain ⟨low, high⟩ := upper
    have low : 0x41 ≤ c.toNat := low
    have high : c.toNat ≤ 0x5A := high
    refine .inl ⟨low, high, ?_⟩
    simp only [Char.toNat, UInt32.toNat_add, UInt32.toNat_sub, Char.reduceVal,
      UInt32.reduceToNat] at low high ⊢
    omega
  case isFalse other =>
    refine .inr ⟨?_, rfl⟩
    by_cases low : 0x41 ≤ c.toNat
    · by_cases high : c.toNat ≤ 0x5A
      · exact absurd ⟨low, high⟩ other
      · omega
    · omega

theorem isFolded_of_toNat (h : c.toNat < 0x41 ∨ 0x5A < c.toNat) : IsFolded c := by
  obtain ⟨low, high, -⟩ | ⟨-, same⟩ := toLower_cases c
  · omega
  · exact same

theorem isFolded_toLower (c : Char) : IsFolded c.toLower := by
  obtain ⟨low, high, up⟩ | ⟨-, same⟩ := toLower_cases c
  · exact isFolded_of_toNat (.inr (by omega))
  · rw [IsFolded, same, same]

theorem toNat_toLower_lt (ascii : c.toNat < 0x80) : c.toLower.toNat < 0x80 := by
  obtain ⟨low, high, up⟩ | ⟨-, same⟩ := toLower_cases c
  · omega
  · rwa [same]

/-- A mark in front of the small letters is no other character in lower case. -/
theorem eq_of_toLower_eq (early : mark.toNat < 0x61) (h : c.toLower = mark) : c = mark := by
  obtain ⟨low, high, up⟩ | ⟨-, same⟩ := toLower_cases c
  · rw [h] at up
    omega
  · exact same.symm.trans h

theorem toList_foldCase (s : String) : (foldCase s).toList = s.toList.map Char.toLower :=
  String.toList_map

/-- A mark is no letter, so that a text contains it in either case. -/
theorem mem_map_toLower (cs : List Char) (folded : IsFolded mark)
    (only : ∀ c : Char, c.toLower = mark → c = mark) : mark ∈ cs.map Char.toLower ↔ mark ∈ cs := by
  simp only [List.mem_map]
  constructor
  · rintro ⟨c, mem, eq⟩
    rwa [← only c eq]
  · intro mem
    exact ⟨mark, mem, folded⟩

theorem mem_foldCase (mark : Char) (s : String) (early : mark.toNat < 0x41) :
    mark ∈ (foldCase s).toList ↔ mark ∈ s.toList := by
  rw [toList_foldCase]
  exact mem_map_toLower _ (isFolded_of_toNat (.inl early))
    fun c => eq_of_toLower_eq (by omega)

/-! ## The table of capitals -/

namespace LowercaseRun

/-- No form of the run is a capital of the other one: the forms lie in front of the capitals, behind
them, or, where capitals and forms take turns, on the code points that the capitals leave out. -/
def avoids (run other : LowercaseRun) : Bool :=
  Nat.blt (run.target + run.width) other.first || Nat.blt (other.first + other.width) run.target ||
    ((Nat.beq run.stride 2 || Nat.beq run.width 0) && Nat.beq other.stride 2 &&
      Nat.beq ((run.target + other.first) % 2) 1)

theorem not_lists_of_avoids {run other : LowercaseRun} {c d : Char}
    (avoids : run.avoids other = true) (lists : run.lists c = true)
    (form : d.toNat = run.target + (c.toNat - run.first)) : other.lists d = false := by
  simp only [LowercaseRun.lists, Bool.and_eq_true, decide_eq_true_eq, beq_iff_eq] at lists
  obtain ⟨⟨low, high⟩, step⟩ := lists
  simp only [LowercaseRun.avoids, Bool.or_eq_true, Bool.and_eq_true, Nat.blt_eq,
    Nat.beq_eq] at avoids
  rw [Bool.eq_false_iff]
  intro listed
  simp only [LowercaseRun.lists, Bool.and_eq_true, decide_eq_true_eq, beq_iff_eq] at listed
  obtain ⟨⟨low', high'⟩, step'⟩ := listed
  obtain (front | behind) | ⟨⟨even | single, stride⟩, odd⟩ := avoids
  · omega
  · omega
  -- the forms and the capitals are even and odd, or the other way
  · rw [even] at step
    rw [stride] at step'
    omega
  · rw [stride] at step'
    omega

end LowercaseRun

/-- All capitals, U+0130 included. -/
def capitalRuns : List LowercaseRun := ⟨0x130, 0, 2, 0x69⟩ :: lowercaseRuns

theorem avoids_of_mem {other : LowercaseRun} (run_mem : run ∈ lowercaseRuns)
    (other_mem : other ∈ capitalRuns) : run.avoids other = true := by
  have all : (lowercaseRuns.all fun run => capitalRuns.all fun other => run.avoids other) = true :=
    by decide +kernel
  exact List.all_eq_true.mp (List.all_eq_true.mp all run run_mem) other other_mem

/-- The lower case forms start with the small letters of ASCII. -/
theorem le_target_of_mem_lowercaseRuns (h : run ∈ lowercaseRuns) : 0x61 ≤ run.target := by
  have all : lowercaseRuns.all (0x61 ≤ ·.target) := by decide +kernel
  exact of_decide_eq_true (List.all_eq_true.mp all run h)

/-! ## Settled characters -/

/-- The character is its own lower case form. -/
def Settled (c : Char) : Prop := lowercaseChar c = [c]

instance (c : Char) : Decidable (Settled c) := inferInstanceAs (Decidable (lowercaseChar c = [c]))

/-- A capital sigma is not settled, whichever form it takes. -/
theorem Settled.ne_sigma (settled : Settled c) : c ≠ 'Σ' := by
  rintro rfl
  have unsettled : ¬ Settled 'Σ' := by decide +kernel
  exact unsettled settled

theorem settled_of_isFolded (ascii : c.toNat < 0x80) (folded : IsFolded c) : Settled c := by
  rw [Settled, lowercaseChar, if_pos ascii, folded]

/-- A number is the code point of its character, unless there is no such code point. -/
theorem ofNat_cases (n : Nat) : (Char.ofNat n).toNat = n ∨ Char.ofNat n = '\x00' := by
  by_cases valid : n.isValidChar
  · left
    rw [Char.ofNat, dif_pos valid]
    rfl
  · right
    rw [Char.ofNat, dif_neg valid]
    rfl

/-- The form that a run gives a character is settled, since no run and no other rule changes it. -/
theorem settled_of_lists (mem : run ∈ lowercaseRuns) (lists : run.lists c = true) :
    Settled (Char.ofNat (run.target + (c.toNat - run.first))) := by
  have low := le_target_of_mem_lowercaseRuns mem
  generalize form : run.target + (c.toNat - run.first) = n
  obtain toNat | none := ofNat_cases n
  · have unlisted {other : LowercaseRun} (other_mem : other ∈ capitalRuns) :
        other.lists (Char.ofNat n) = false :=
      LowercaseRun.not_lists_of_avoids (avoids_of_mem mem other_mem) lists (toNat.trans form.symm)
    by_cases ascii : n < 0x80
    · exact settled_of_isFolded (by omega) (isFolded_of_toNat (.inr (by omega)))
    · have not_dotted : n ≠ 0x130 := by
        rintro rfl
        exact absurd (unlisted List.mem_cons_self) (by decide)
      have none : lowercaseRuns.find? (·.lists (Char.ofNat n)) = none := by
        rw [List.find?_eq_none]
        intro other other_mem
        rw [unlisted (List.mem_cons_of_mem _ other_mem)]
        exact Bool.false_ne_true
      rw [Settled, lowercaseChar, toNat, if_neg ascii, if_neg not_dotted, none]
  · rw [none]
    decide +kernel

theorem settled_of_mem_lowercaseChar (h : d ∈ lowercaseChar c) : Settled d := by
  unfold lowercaseChar at h
  split at h
  case isTrue ascii =>
    rw [List.mem_singleton.mp h]
    exact settled_of_isFolded (toNat_toLower_lt ascii) (isFolded_toLower c)
  case isFalse late =>
    split at h
    · obtain rfl | rfl : d = 'i' ∨ d = Char.ofNat 0x307 := by simpa using h
      · decide +kernel
      · decide +kernel
    case isFalse not_dotted =>
      split at h
      case h_1 run found =>
        rw [List.mem_singleton.mp h]
        exact settled_of_lists (List.mem_of_find?_eq_some found)
          (List.find?_eq_some_iff_append.mp found).1
      case h_2 unlisted =>
        obtain rfl := List.mem_singleton.mp h
        rw [Settled, lowercaseChar, if_neg late, if_neg not_dotted, unlisted]

/-- What stands in a lower case form is the form of a character, or of a sigma by its place. -/
theorem mem_lowercaseFrom_cases (h : d ∈ lowercaseFrom before cs) :
    (d = 'ς' ∨ d = 'σ') ∨ ∃ c ∈ cs, d ∈ lowercaseChar c := by
  induction cs generalizing before with
  | nil => cases h
  | cons c rest ih =>
    have later : d ∈ lowercaseFrom (c :: before) rest →
        (d = 'ς' ∨ d = 'σ') ∨ ∃ c' ∈ c :: rest, d ∈ lowercaseChar c' := by
      intro h
      exact (ih h).imp_right fun ⟨c', mem, form⟩ => ⟨c', List.mem_cons_of_mem c mem, form⟩
    unfold lowercaseFrom at h
    split at h
    · obtain rfl | h := List.mem_cons.mp h
      · left
        split <;> simp
      · exact later h
    · obtain h | h := List.mem_append.mp h
      · exact .inr ⟨c, List.mem_cons_self, h⟩
      · exact later h

/-- Lower case leaves nothing to change. -/
theorem settled_of_mem_lowercaseFrom (h : d ∈ lowercaseFrom before cs) : Settled d := by
  obtain (rfl | rfl) | ⟨c, -, form⟩ := mem_lowercaseFrom_cases h
  · decide +kernel
  · decide +kernel
  · exact settled_of_mem_lowercaseChar form

/-- No capital of ASCII is settled. -/
theorem Settled.isFolded (settled : Settled c) : IsFolded c := by
  by_cases ascii : c.toNat < 0x80
  · rw [Settled, lowercaseChar, if_pos ascii] at settled
    exact List.singleton_inj.mp settled
  · exact isFolded_of_toNat (.inr (by omega))

/-- A text of settled characters is its own lower case form. -/
theorem lowercaseFrom_of_settled (settled : ∀ c ∈ cs, Settled c) (before : List Char) :
    lowercaseFrom before cs = cs := by
  induction cs generalizing before with
  | nil => rfl
  | cons c rest ih =>
    have head := settled c List.mem_cons_self
    rw [lowercaseFrom, if_neg head.ne_sigma, head,
      ih (fun d mem => settled d (List.mem_cons_of_mem c mem)), List.singleton_append]

/-! ## Marks -/

/-- A mark in front of the small letters is the form of no other character. -/
theorem eq_of_mem_lowercaseChar (low : 0 < mark.toNat) (early : mark.toNat < 0x61)
    (h : mark ∈ lowercaseChar c) : c = mark := by
  unfold lowercaseChar at h
  split at h
  · exact eq_of_toLower_eq early (List.mem_singleton.mp h).symm
  · split at h
    · obtain rfl | rfl : mark = 'i' ∨ mark = Char.ofNat 0x307 := by simpa using h
      · exact absurd early (by decide)
      · exact absurd early (by decide)
    · split at h
      case h_1 run found =>
        have target := le_target_of_mem_lowercaseRuns (List.mem_of_find?_eq_some found)
        rw [List.mem_singleton.mp h] at low early
        obtain toNat | none := ofNat_cases (run.target + (c.toNat - run.first))
        · omega
        · rw [none] at low
          exact absurd low (by decide)
      case h_2 => exact (List.mem_singleton.mp h).symm

theorem mem_of_mem_lowercaseFrom (low : 0 < mark.toNat) (early : mark.toNat < 0x61)
    (h : mark ∈ lowercaseFrom before cs) : mark ∈ cs := by
  obtain (rfl | rfl) | ⟨c, mem, form⟩ := mem_lowercaseFrom_cases h
  · exact absurd early (by decide)
  · exact absurd early (by decide)
  · rwa [← eq_of_mem_lowercaseChar low early form]

/-! ## ASCII -/

/-- All characters of the text are ASCII. -/
def IsAscii (s : String) : Prop := ∀ c ∈ s.toList, c.toNat < 0x80

-- given by name: the search for an instance may come up with the one that tries all characters
instance (s : String) : Decidable (IsAscii s) :=
  List.decidableBAll (fun c : Char => c.toNat < 0x80) s.toList

theorem lowercaseFrom_of_isAscii (ascii : ∀ c ∈ cs, c.toNat < 0x80) (before : List Char) :
    lowercaseFrom before cs = cs.map Char.toLower := by
  induction cs generalizing before with
  | nil => rfl
  | cons c rest ih =>
    have head := ascii c List.mem_cons_self
    have not_sigma : c ≠ 'Σ' := by
      rintro rfl
      exact absurd head (by decide)
    rw [lowercaseFrom, if_neg not_sigma, lowercaseChar, if_pos head,
      ih (fun d mem => ascii d (List.mem_cons_of_mem c mem)), List.singleton_append, List.map_cons]

end StackScript.Text
