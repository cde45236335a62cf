import StackScript.Proofs.Evaluation.Shortcut

/-!
# The keys of array literals

An entry of an array literal that has no key, or whose key is null, gets an integer key: one more
than the largest integer key in front of it, and none that is negative. The machine computes one
more on words, so the greatest word has no successor and is passed over. Where no key in front is
the greatest word, the new key differs from all of them.

## Main definitions

* `integerKeys`, `nextKey`: the integer keys of entries, and the key that comes next
* `Value.numberKeys?`: entries numbered by an addition that traps on overflow
* `Value.Numbers`: the entries of a literal before and after they are numbered

## Main results

* `Value.numbers_numberKeys`: what numbering does to any entries
* `numbers_arrayLiteral`: what the code of any array literal comes to
* `exists_key_repeated`: behind the greatest word a key is given out twice
-/

namespace StackScript

/-! ## The key that comes next -/

/-- The integers among the keys of entries. -/
def integerKeys (entries : List (Value × Value)) : List Int :=
  entries.filterMap fun entry =>
    match entry.1 with
    | .long n => some n.toInt
    | _ => none

/-- One more than the largest of some integers, or 0 if there is none or it is negative. -/
def nextKey (keys : List Int) : Int :=
  match keys.max? with
  | some largest => if largest < 0 then 0 else largest + 1
  | none => 0

section NextKey

variable {keys : List Int} {k m : Int}

/-- The next key is the smallest one that is not negative and larger than all. -/
theorem nextKey_le_iff : nextKey keys ≤ m ↔ 0 ≤ m ∧ ∀ k ∈ keys, k < m := by
  unfold nextKey
  cases hmax : keys.max? with
  | none =>
    obtain rfl := List.max?_eq_none_iff.mp hmax
    simp
  | some largest =>
    obtain ⟨mem, all⟩ := List.max?_eq_some_iff.mp hmax
    dsimp only
    constructor
    · intro h
      refine ⟨by grind, fun k hk => ?_⟩
      have := all k hk
      grind
    · rintro ⟨h, hall⟩
      have := hall largest mem
      grind

theorem lt_nextKey (h : k ∈ keys) : k < nextKey keys := (nextKey_le_iff.mp (Int.le_refl _)).2 k h

theorem nextKey_concat (keys : List Int) (k : Int) :
    nextKey (keys ++ [k]) = max (nextKey keys) (k + 1) := by
  refine eq_of_forall_ge_iff fun m => ?_
  rw [max_le_iff, nextKey_le_iff, nextKey_le_iff, Int.add_one_le_iff, List.forall_mem_append,
    List.forall_mem_singleton, and_assoc]

end NextKey

/-! ## Words -/

theorem toInt_max (a b : Int64) : (max a b).toInt = max a.toInt b.toInt := by
  show (if a ≤ b then b else a).toInt = _
  rw [max_def]
  simp only [Int64.le_iff_toInt_le]
  split <;> rfl

/-- The words with a successor are all but the greatest. -/
theorem toInt_add_one_iff (n : Int64) : (n + 1).toInt = n.toInt + 1 ↔ n ≠ Int64.maxValue := by
  have := Int64.toInt_lt n
  have := Int64.le_toInt n
  rw [Int64.toInt_add, Ne, ← Int64.toInt_inj, Int64.toInt_maxValue, Int64.toInt_one]
  grind

/-- The greatest word is followed by the smallest, which never counts. -/
theorem max_maxValue_add_one (next : Int64) : max next (Int64.maxValue + 1) = next := by
  refine Int64.toInt_inj.mp ?_
  have smallest : (Int64.maxValue + 1).toInt = -2 ^ 63 := by decide
  rw [toInt_max, smallest]
  exact max_eq_left (Int64.le_toInt next)

/-! ## Entries and their numbers -/

namespace Value

/-- The integer keys of entries for which one more is an integer of the machine too. -/
def countedKeys (entries : List (Value × Value)) : List Int :=
  (integerKeys entries).filter (· ≠ Int64.maxValue.toInt)

/-- One more, unless that is no integer of the machine. -/
def successor? (n : Int64) : Option Int64 :=
  if n.toInt + 1 < 2 ^ 63 then some (n + 1) else none

/-- Entries numbered by an addition that traps on overflow. -/
def numberKeys? (next : Int64) : List (Value × Value) → Option (List (Value × Value))
  | [] => some []
  | (.null, value) :: rest =>
    (successor? next).bind fun behind =>
      (numberKeys? (max next behind) rest).map ((.long next, value) :: ·)
  | (.long n, value) :: rest =>
    (successor? n).bind fun behind =>
      (numberKeys? (max next behind) rest).map ((.long n, value) :: ·)
  | (key, value) :: rest => (numberKeys? next rest).map ((key, value) :: ·)

/-- Entries `given` to an array literal, and the entries `out` of the array: they are as many and in
the same order, a key that was given stays, and every other one is new. -/
structure Numbers (given out : List (Value × Value)) : Prop where
  length : out.length = given.length
  kept : ∀ (i : Nat) key value, given[i]? = some (key, value) → key ≠ .null →
    out[i]? = some (key, value)
  /-- The greatest word is passed over. -/
  next : ∀ (i : Nat) value, given[i]? = some (.null, value) → ∃ n : Int64,
    out[i]? = some (.long n, value) ∧ n.toInt = nextKey (countedKeys (out.take i))
  /-- In front of it, a new key is the next one, and differs from all that came before. -/
  fresh : ∀ (i : Nat) value, given[i]? = some (.null, value) →
    (∀ entry ∈ out.take i, entry.1 ≠ .long Int64.maxValue) → ∃ n : Int64,
    out[i]? = some (.long n, value) ∧ n.toInt = nextKey (integerKeys (out.take i)) ∧
      ∀ entry ∈ out.take i, entry.1 ≠ .long n
  /-- No addition overflows unless a key is the greatest word. -/
  exact_iff : numberKeys? 0 given = some out ↔
    ∀ entry ∈ out, entry.1 ≠ .long Int64.maxValue

section Numbering

variable {next : Int64} {prior given rest : List (Value × Value)} {key value : Value}

/-- The key of an entry, if the next number is known. -/
def chosenKey (next : Int64) : Value → Value
  | .null => .long next
  | key => key

/-- The next number behind a key. -/
def nextBehind (next : Int64) : Value → Int64
  | .long n => max next (n + 1)
  | _ => next

theorem numberKeys_cons : numberKeys next ((key, value) :: rest) =
    (chosenKey next key, value) :: numberKeys (nextBehind next (chosenKey next key)) rest := by
  cases key <;> rfl

theorem length_numberKeys (next : Int64) (given : List (Value × Value)) :
    (numberKeys next given).length = given.length := by
  induction given generalizing next with
  | nil => rfl
  | cons entry rest ih => rw [numberKeys_cons, List.length_cons, ih, List.length_cons]

theorem countedKeys_append (entries more : List (Value × Value)) :
    countedKeys (entries ++ more) = countedKeys entries ++ countedKeys more := by
  rw [countedKeys, integerKeys, List.filterMap_append, List.filter_append]
  rfl

/-- The next number stays the next key behind one more entry. -/
theorem toInt_nextBehind (h : next.toInt = nextKey (countedKeys prior)) (key value : Value) :
    (nextBehind next key).toInt = nextKey (countedKeys (prior ++ [(key, value)])) := by
  rw [countedKeys_append]
  cases key with
  | long n =>
    by_cases hn : n = Int64.maxValue
    · subst hn
      rw [nextBehind, max_maxValue_add_one, h]
      exact congrArg nextKey (List.append_nil _).symm
    · have counted : countedKeys [(.long n, value)] = [n.toInt] := by
        have := mt Int64.toInt_inj.mp hn
        simpa [countedKeys, integerKeys] using this
      rw [nextBehind, toInt_max, (toInt_add_one_iff n).mpr hn, counted, nextKey_concat, h]
  | _ => exact h.trans (congrArg nextKey (List.append_nil _).symm)

/-- **Every entry is numbered by what came before it**: an induction over the entries that carries
the next number along. -/
theorem getElem?_numberKeys (h : next.toInt = nextKey (countedKeys prior)) {i : Nat}
    (hi : given[i]? = some (key, value)) : ∃ n : Int64,
    n.toInt = nextKey (countedKeys (prior ++ (numberKeys next given).take i)) ∧
      (numberKeys next given)[i]? = some (chosenKey n key, value) := by
  induction given generalizing prior next i with
  | nil => cases hi
  | cons entry rest ih =>
    obtain ⟨k, v⟩ := entry
    rw [numberKeys_cons]
    cases i with
    | zero =>
      cases hi
      refine ⟨next, ?_, rfl⟩
      rw [List.take_zero, List.append_nil, h]
    | succ i =>
      obtain ⟨n, hn, hout⟩ := ih (toInt_nextBehind h (chosenKey next k) v) hi
      refine ⟨n, ?_, hout⟩
      rw [hn, List.append_assoc]
      rfl

/-- The next number behind a key, by an addition that traps on overflow. -/
def nextBehind? (next : Int64) : Value → Option Int64
  | .long n => (successor? n).map (max next ·)
  | _ => some next

theorem successor?_eq (n : Int64) :
    successor? n = if n = Int64.maxValue then none else some (n + 1) := by
  have := Int64.toInt_lt n
  unfold successor?
  simp only [← Int64.toInt_inj, Int64.toInt_maxValue]
  grind

theorem nextBehind?_eq_some_iff {behind : Int64} :
    nextBehind? next key = some behind ↔
      behind = nextBehind next key ∧ key ≠ .long Int64.maxValue := by
  cases key with
  | long n =>
    rw [nextBehind?, successor?_eq, nextBehind, Ne, Value.long.injEq]
    split <;> simp [*, eq_comm]
  | _ => simp [nextBehind?, nextBehind, eq_comm]

theorem numberKeys?_cons : numberKeys? next ((key, value) :: rest) =
    (nextBehind? next (chosenKey next key)).bind fun behind =>
      (numberKeys? behind rest).map ((chosenKey next key, value) :: ·) := by
  cases key with
  | null => simp only [numberKeys?, chosenKey, nextBehind?, Option.bind_map, Function.comp_def]
  | long n => simp only [numberKeys?, chosenKey, nextBehind?, Option.bind_map, Function.comp_def]
  | _ => rfl

/-- The addition that traps comes to the same numbers, unless the greatest word is met. -/
theorem numberKeys?_eq_some_iff {out : List (Value × Value)} :
    numberKeys? next given = some out ↔
      out = numberKeys next given ∧ ∀ entry ∈ out, entry.1 ≠ .long Int64.maxValue := by
  induction given generalizing next out with
  | nil =>
    rw [numberKeys?, numberKeys]
    constructor
    · rintro ⟨⟩
      exact ⟨rfl, by simp⟩
    · rintro ⟨rfl, -⟩
      rfl
  | cons entry rest ih =>
    obtain ⟨key, value⟩ := entry
    rw [numberKeys?_cons, numberKeys_cons, Option.bind_eq_some_iff]
    constructor
    · rintro ⟨behind, hbehind, hrest⟩
      obtain ⟨rfl, hkey⟩ := nextBehind?_eq_some_iff.mp hbehind
      obtain ⟨out, hout, rfl⟩ := Option.map_eq_some_iff.mp hrest
      obtain ⟨rfl, hall⟩ := ih.mp hout
      exact ⟨rfl, List.forall_mem_cons.mpr ⟨hkey, hall⟩⟩
    · rintro ⟨rfl, hall⟩
      obtain ⟨hkey, hall⟩ := List.forall_mem_cons.mp hall
      exact ⟨_, nextBehind?_eq_some_iff.mpr ⟨rfl, hkey⟩,
        Option.map_eq_some_iff.mpr ⟨_, ih.mpr ⟨rfl, hall⟩, rfl⟩⟩

/-- **What numbering does to any entries.** -/
theorem numbers_numberKeys (given : List (Value × Value)) : Numbers given (numberKeys 0 given) := by
  have start : (0 : Int64).toInt = nextKey (countedKeys []) := by decide
  have numbered {i : Nat} {key value : Value} (hi : given[i]? = some (key, value)) :=
    getElem?_numberKeys start hi
  refine ⟨length_numberKeys 0 given, fun i key value hi hkey => ?_, fun i value hi => ?_,
    fun i value hi below => ?_, ?_⟩
  · obtain ⟨n, -, hout⟩ := numbered hi
    rw [hout]
    cases key <;> first | rfl | exact absurd rfl hkey
  · obtain ⟨n, hn, hout⟩ := numbered hi
    exact ⟨n, hout, hn⟩
  · obtain ⟨n, hn, hout⟩ := numbered hi
    have all : countedKeys ((numberKeys 0 given).take i) =
        integerKeys ((numberKeys 0 given).take i) := by
      refine List.filter_eq_self.mpr fun k hk => ?_
      obtain ⟨⟨key, value⟩, he, hkey⟩ := List.mem_filterMap.mp hk
      have hne := below _ he
      cases key with
      | long m =>
        cases hkey
        simpa [Int64.toInt_inj] using hne
      | _ => cases hkey
    rw [List.nil_append, all] at hn
    refine ⟨n, hout, hn, fun entry he heq => ?_⟩
    have mem : n.toInt ∈ integerKeys ((numberKeys 0 given).take i) :=
      List.mem_filterMap.mpr ⟨entry, he, by rw [heq]⟩
    exact absurd (lt_nextKey mem) (by rw [hn]; exact Int.lt_irrefl _)
  · rw [numberKeys?_eq_some_iff, eq_self_iff_true, true_and]

end Numbering

end Value

/-! ## Array literals -/

/-- Keys and values as they were evaluated. -/
def givenEntries (pairs : List (Slot × Slot)) : List (Value × Value) :=
  pairs.map fun (key, value) => (key.toValue, value.toValue)

section Literals

variable {σ : Type} {world : World σ} {env : BodyEnv}

/-- The keys and values of the entries of a literal, one after the other. -/
def Eval.entriesFrom (world : World σ) (env : BodyEnv) (items : List ArrayEntry) (n : SiteId) :
    Eval σ (List (Slot × Slot)) :=
  Eval.entries ((meaningEntries world env items).runFrom n).1

/-- As many keys and values as entries; the key of an entry that has none is null. -/
theorem Eval.always_entriesFrom (items : List ArrayEntry) (n : SiteId) :
    (Eval.entriesFrom world env items n).Always
      (List.Forall₂ (fun item pair => item.isKeyed = false → pair.1 = Slot.unset) items) := by
  induction items generalizing n with
  | nil =>
    rw [entriesFrom, meaningEntries]
    exact .pure .nil
  | cons item rest ih =>
    rw [entriesFrom, meaningEntries]
    cases item with
    | item value =>
      rw [ArrayEntry.meaning]
      simp only [Numbered.runFrom_bind, Numbered.runFrom_pure, Eval.entries, Option.getD_none]
      exact .bind (P := (· = Slot.unset)) (.pure rfl) fun k hk => .bind .trivial fun v _ =>
        (ih _).bind fun ps hps => .pure (.cons (fun _ => hk) hps)
    | keyed key value =>
      rw [ArrayEntry.meaning]
      simp only [Numbered.runFrom_bind, Numbered.runFrom_pure, Eval.entries, Option.getD_some]
      exact .bind .trivial fun k _ => .bind .trivial fun v _ =>
        (ih _).bind fun ps hps => .pure (.cons (fun unkeyed => by cases unkeyed) hps)

/-- **Array literals**: wherever the code of one stands, it evaluates the keys and values in order
and comes to an array of them. The array has an entry for each that is written down, in the same
order; one with a key that is not null keeps it, and every other one gets the next key. -/
theorem numbers_arrayLiteral (c : Setting σ) (items : List ArrayEntry) {d d' : Draft}
    (written : Assembler.empty.Evolves d.asm)
    (compiled : Ends (emitValue env (.array items)) d () d') (behind : d'.asm.Evolves c.final)
    (f : Frame) (s : σ) (hpc : f.pc = d.asm.code.size)
    (hsize : f.locals.size = c.final.slots.slots.size) :
    ∃ out : List (Slot × Slot) → List (Value × Value),
      Comes c d.asm d'.asm f.stack (fun x => [x]) f s
        ((Eval.entriesFrom c.world env items d.nextSite >>= fun pairs =>
          pure (Slot.value (.array (out pairs)))).outcome (f.vars c.final.slots) s) ∧
      (Eval.entriesFrom c.world env items d.nextSite).Always
        (List.Forall₂ (fun item pair => item.isKeyed = false → pair.1 = Slot.unset) items) ∧
      ∀ pairs, Value.Numbers (givenEntries pairs) (out pairs) := by
  have comes := ((means_lower (.array items)).value []).comes written compiled behind s hpc rfl
    hsize
  rw [Expr.meaning] at comes
  exact ⟨fun pairs => Value.numberKeys 0 (givenEntries pairs), comes,
    Eval.always_entriesFrom items _, fun pairs => Value.numbers_numberKeys _⟩

end Literals

/-- An array whose first key is the greatest word but one, with two entries behind. -/
def topItems : List ArrayEntry :=
  [.keyed (.literal (.long (Int64.maxValue - 1))) (.literal (.long 1)),
    .item (.literal (.long 2)), .item (.literal (.long 3))]

/-- The array in front of all other code of a body. -/
theorem exists_setting_topItems : ∃ (c : Setting Unit) (d' : Draft),
    Ends (emitValue .bare (.array topItems)) (.start 0) () d' ∧ d'.asm.Evolves c.final := by
  have writes : ((emitValue .bare (.array topItems)).run (.start 0)).1.isOk &&
      (((emitValue .bare (.array topItems)).run (.start 0)).2.asm.finish 16).isOk := by
    decide +kernel
  obtain ⟨ok, finishes⟩ := Bool.and_eq_true_iff.mp writes
  obtain ⟨c, d', -, -, ends, final⟩ := exists_setting (fun _ => pure Value.null) ok finishes
  exact ⟨c, d', ends, final ▸ .refl _⟩

theorem numbers_arrayLiteral_topItems :
    ∃ (c : Setting Unit) (d' : Draft) (f : Frame) (out : List (Slot × Slot) → List (Value × Value)),
      Ends (emitValue .bare (.array topItems)) (.start 0) () d' ∧
      Comes c .empty d'.asm f.stack (fun x => [x]) f ()
        ((Eval.entriesFrom c.world .bare topItems 0 >>= fun pairs =>
          pure (Slot.value (.array (out pairs)))).outcome (f.vars c.final.slots) ()) ∧
      (Eval.entriesFrom c.world .bare topItems 0).Always
        (List.Forall₂ (fun item pair => item.isKeyed = false → pair.1 = Slot.unset) topItems) ∧
      ∀ pairs, Value.Numbers (givenEntries pairs) (out pairs) := by
  obtain ⟨c, d', ends, behind⟩ := exists_setting_topItems
  let f : Frame := .fresh .null c.final.slots
  obtain ⟨out, comes, always, numbers⟩ :=
    numbers_arrayLiteral c topItems (.refl _) ends behind f () rfl Array.size_map
  exact ⟨c, d', f, out, ends, comes, always, numbers⟩

/-- **Behind the greatest word**, which has no successor, the same key is given out again. -/
theorem exists_key_repeated :
    ∃ (c : Setting Unit) (d' : Draft) (f f' : Frame),
      Ends (emitValue .bare (.array topItems)) (.start 0) () d' ∧ f.pc = 0 ∧ f.stack = [] ∧
      c.Reaches (.running f, ()) (.running f', ()) ∧ f'.pc = d'.asm.code.size ∧
      f'.stack = [.value (.array [(.long (Int64.maxValue - 1), .long 1),
        (.long Int64.maxValue, .long 2), (.long Int64.maxValue, .long 3)])] ∧
      Value.numberKeys? 0 [(.long (Int64.maxValue - 1), .long 1), (.null, .long 2),
        (.null, .long 3)] = none := by
  obtain ⟨c, d', ends, behind⟩ := exists_setting_topItems
  have empty : (Frame.fresh .null c.final.slots).stack = [] := rfl
  have comes := ((means_lower (.array topItems)).value []).comes (.refl _) ends behind () rfl empty
    Array.size_map
  change Comes c _ _ [] _ _ () (some (.ok (Slot.value (.array
    [(.long (Int64.maxValue - 1), .long 1), (.long Int64.maxValue, .long 2),
      (.long Int64.maxValue, .long 3)])), _, ())) at comes
  cases comes with
  | ends reach hpc hstack => exact ⟨c, d', _, _, ends, rfl, rfl, reach.reaches, hpc, hstack, rfl⟩

end StackScript
