import Retrace.Proofs.NormalForm
import Mathlib

/-! Which directives are mere levels: those of a regular language. A number counts by what it denotes,
with any zeros in front. Digits that denote no count of 64 bits are refused and never wrap around, so a
long number is not taken for a small one. -/
namespace Retrace

namespace Text

theorem isAlpha_iff {c : Char} :
    c.isAlpha = true ↔ 65 ≤ c.toNat ∧ c.toNat ≤ 90 ∨ 97 ≤ c.toNat ∧ c.toNat ≤ 122 := by
  simp only [Char.isAlpha, Char.isUpper, Char.isLower, Bool.or_eq_true, Bool.and_eq_true,
    decide_eq_true_eq, ge_iff_le, UInt32.le_iff_toNat_le]
  rfl

theorem toLower_eq_iff {c d : Char} (hc : c.isLower = true) :
    d.toLower = c ↔ d = c ∨ d = c.toUpper := by
  have hself : c.toLower = c := Char.toLower_eq_of_not_isUpper (Char.not_isUpper_of_isLower hc)
  constructor
  · rintro rfl
    by_cases hd : d.isUpper = true
    · right
      rw [Char.toUpper_toLower_eq_toUpper,
        Char.toUpper_eq_of_not_isLower (Char.not_isLower_of_isUpper hd)]
    · exact .inl (Char.toLower_eq_of_not_isUpper hd).symm
  · rintro (rfl | rfl)
    · exact hself
    · rw [Char.toLower_toUpper_eq_toLower, hself]

end Text

namespace Count

theorem le_ofDigitChars (value : Nat) (ds : List Char) : value ≤ Nat.ofDigitChars 10 ds value := by
  induction ds generalizing value with
  | nil => exact Nat.le_refl value
  | cons c ds ih =>
    rw [Nat.ofDigitChars_cons]
    have hlater := ih (10 * value + (c.toNat - '0'.toNat))
    omega

/-- Digits are read as what they denote, unless that is no count. -/
theorem readDigits_eq_some_iff {value n : Nat} (hv : value ≤ top) {ds : List Char} :
    readDigits value ds = some n ↔
      (∀ c ∈ ds, c.isDigit = true) ∧ Nat.ofDigitChars 10 ds value = n ∧ n ≤ top := by
  induction ds generalizing value with
  | nil =>
    simp only [readDigits_nil, Option.some.injEq, Nat.ofDigitChars_nil]
    constructor
    · rintro rfl
      exact ⟨fun _ hc => absurd hc List.not_mem_nil, rfl, hv⟩
    · exact fun h => h.2.1
  | cons c ds ih =>
    rw [readDigits_cons, Nat.ofDigitChars_cons, List.forall_mem_cons]
    by_cases hc : c.isDigit = true
    · by_cases hnext : 10 * value + (c.toNat - '0'.toNat) ≤ top
      · rw [pushDigit, if_pos hc, if_pos hnext, Option.bind_some, ih hnext]
        simp only [hc, true_and]
      · -- what has been read so far is too much, and more digits only make it more
        have hmore := le_ofDigitChars (10 * value + (c.toNat - '0'.toNat)) ds
        rw [pushDigit, if_pos hc, if_neg hnext, Option.bind_none]
        constructor
        · rintro ⟨⟩
        · rintro ⟨-, rfl, hn⟩
          exact absurd (Nat.le_trans hmore hn) hnext
    · rw [pushDigit, if_neg hc, Option.bind_none]
      constructor
      · rintro ⟨⟩
      · exact fun h => absurd h.1.1 hc

structure Numeral (ds : List Char) : Prop where
  nonempty : ds ≠ []
  digits : ∀ c ∈ ds, c.isDigit = true

instance (ds : List Char) : Decidable (Numeral ds) :=
  decidable_of_iff (ds ≠ [] ∧ ds.all Char.isDigit = true)
    ⟨fun h => ⟨h.1, List.all_eq_true.1 h.2⟩, fun h => ⟨h.nonempty, List.all_eq_true.2 h.digits⟩⟩

theorem readUnsigned_eq_some_iff {ds : List Char} {n : Nat} :
    readUnsigned ds = some n ↔ Numeral ds ∧ Nat.ofDigitChars 10 ds 0 = n ∧ n ≤ top := by
  cases ds with
  | nil =>
    constructor
    · rintro ⟨⟩
    · exact fun h => absurd rfl h.1.nonempty
  | cons c ds =>
    rw [readUnsigned, readDigits_eq_some_iff (Nat.zero_le top)]
    constructor
    · exact fun h => ⟨⟨List.cons_ne_nil c ds, h.1⟩, h.2⟩
    · exact fun h => ⟨h.1.digits, h.2⟩

/-- What may stand in front of a count. -/
def signs : List (List Char) := [[], ['+']]

theorem mem_signs_iff {sign : List Char} : sign ∈ signs ↔ sign = [] ∨ sign = ['+'] := by
  simp [signs]

theorem Numeral.ne_plus_cons {ds : List Char} (h : Numeral ds) (rest : List Char) :
    ds ≠ '+' :: rest := by
  rintro rfl
  exact absurd (h.digits '+' List.mem_cons_self) (by decide)

theorem read?_eq_some_iff {p : List Char} {n : Nat} :
    read? p = some n ↔
      ∃ sign ∈ signs, ∃ ds, p = sign ++ ds ∧ Numeral ds ∧ Nat.ofDigitChars 10 ds 0 = n ∧ n ≤ top := by
  constructor
  · intro h
    unfold read? at h
    split at h
    · rename_i rest
      exact ⟨['+'], by decide, rest, rfl, readUnsigned_eq_some_iff.1 h⟩
    · exact ⟨[], by decide, p, rfl, readUnsigned_eq_some_iff.1 h⟩
  · rintro ⟨sign, hsign, ds, rfl, h⟩
    rcases mem_signs_iff.1 hsign with rfl | rfl
    · rw [List.nil_append, read?, readUnsigned_eq_some_iff.2 h]
      exact h.1.ne_plus_cons
    · exact readUnsigned_eq_some_iff.2 h

theorem eq_zero_of_isDigit {c : Char} (h : c.isDigit = true) (hz : c.toNat - '0'.toNat = 0) :
    c = '0' :=
  Char.toNat_inj.1 (Nat.le_antisymm (Nat.sub_eq_zero_iff_le.1 hz) (Char.isDigit_iff_toNat.1 h).1)

/-- What digits denote is small if zeros stand before the last of them, and that one is small. -/
theorem Numeral.value_le_iff {ds : List Char} (h : Numeral ds) {m : Nat} (hm : m < 10) :
    Nat.ofDigitChars 10 ds 0 ≤ m ↔
      ∃ k last, ds = List.replicate k '0' ++ [last] ∧ last.toNat - '0'.toNat ≤ m := by
  obtain ⟨hne, hdigits⟩ := h
  constructor
  · intro hle
    induction ds with
    | nil => exact absurd rfl hne
    | cons c ds ih =>
      rw [Nat.ofDigitChars_cons] at hle
      cases ds with
      | nil => exact ⟨0, c, rfl, by simpa using hle⟩
      | cons d ds =>
        -- a first digit that is not zero makes the number ten or more
        have hbound := le_ofDigitChars (10 * (10 * 0 + (c.toNat - '0'.toNat)) + (d.toNat - '0'.toNat)) ds
        rw [Nat.ofDigitChars_cons] at hle
        have hzero : c.toNat - '0'.toNat = 0 := by omega
        have hc : c = '0' := eq_zero_of_isDigit (hdigits c List.mem_cons_self) hzero
        rw [hzero, ← Nat.ofDigitChars_cons] at hle
        obtain ⟨k, last, hds, hlast⟩ :=
          ih (List.cons_ne_nil d ds) (fun e he => hdigits e (List.mem_cons_of_mem c he)) hle
        exact ⟨k + 1, last, by rw [hc, hds, List.replicate_succ, List.cons_append], hlast⟩
  · rintro ⟨k, last, rfl, hlast⟩
    rw [Nat.ofDigitChars_append, Nat.ofDigitChars_replicate_zero, Nat.ofDigitChars_cons,
      Nat.ofDigitChars_nil]
    omega

end Count

namespace Directive

theorem isLevelNumber_iff {p : List Char} :
    isLevelNumber p = true ↔
      ∃ sign ∈ Count.signs, ∃ ds, p = sign ++ ds ∧ Count.Numeral ds ∧ Nat.ofDigitChars 10 ds 0 ≤ 5 := by
  have htop : 5 ≤ Count.top := by decide
  simp only [isLevelNumber, Option.any_eq_true, decide_eq_true_eq, Count.read?_eq_some_iff]
  constructor
  · rintro ⟨n, ⟨sign, hsign, ds, hp, hds, hn, -⟩, hle⟩
    exact ⟨sign, hsign, ds, hp, hds, hn ▸ hle⟩
  · rintro ⟨sign, hsign, ds, hp, hds, hle⟩
    exact ⟨_, ⟨sign, hsign, ds, hp, hds, rfl, Nat.le_trans hle htop⟩, hle⟩

theorem isLevelName_iff {p : List Char} :
    isLevelName p = true ↔ ∃ name ∈ levelNames, p.map Char.toLower = name := by
  rw [isLevelName, List.contains_iff_mem]
  constructor
  · exact fun h => ⟨_, h, rfl⟩
  · rintro ⟨_, h, rfl⟩
    exact h

/-! The language, as a regular expression. -/

def levelDigits : List Char := ['0', '1', '2', '3', '4', '5']

/-- A sign or none, zeros, and the digit of a level. -/
def numbers : RegularExpression Char :=
  (1 + .char '+') * .star (.char '0') * (levelDigits.map .char).sum

def eitherCase (c : Char) : RegularExpression Char := .char c + .char c.toUpper

def names : RegularExpression Char := (levelNames.map fun name => (name.map eitherCase).prod).sum

def levels : RegularExpression Char := numbers + names

theorem mem_matches_sum {rs : List (RegularExpression Char)} {p : List Char} :
    p ∈ rs.sum.matches' ↔ ∃ r ∈ rs, p ∈ r.matches' := by
  induction rs with
  | nil => simp [Language.notMem_zero]
  | cons r rs ih => simp [Language.mem_add, ih]

theorem mem_matches_zeros {p : List Char} :
    p ∈ (RegularExpression.star (.char '0')).matches' ↔ ∃ k, p = List.replicate k '0' := by
  rw [RegularExpression.matches'_star, RegularExpression.matches'_char, Language.mem_kstar]
  constructor
  · rintro ⟨zeros, rfl, h⟩
    rw [List.eq_replicate_of_mem h, List.flatten_replicate_singleton]
    exact ⟨zeros.length, rfl⟩
  · rintro ⟨k, rfl⟩
    exact ⟨List.replicate k ['0'], List.flatten_replicate_singleton.symm,
      fun _ hy => List.eq_of_mem_replicate hy⟩

theorem mem_matches_char {p : List Char} {c : Char} :
    p ∈ (RegularExpression.char c).matches' ↔ p = [c] := Iff.rfl

theorem mem_matches_sign {p : List Char} :
    p ∈ ((1 : RegularExpression Char) + .char '+').matches' ↔ p ∈ Count.signs := by
  rw [RegularExpression.matches'_add, Language.mem_add, mem_matches_char,
    RegularExpression.matches'_epsilon, Language.mem_one, Count.mem_signs_iff]

theorem isDigit_of_mem_levelDigits : ∀ d ∈ levelDigits, d.isDigit = true :=
  List.all_eq_true.1 (by decide)

theorem mem_levelDigits_iff {d : Char} (hd : d.isDigit = true) :
    d ∈ levelDigits ↔ d.toNat - '0'.toNat ≤ 5 := by
  have hzero : 48 ≤ d.toNat := (Char.isDigit_iff_toNat.1 hd).1
  have hcodes : levelDigits.map Char.toNat = [48, 49, 50, 51, 52, 53] := by decide
  have hinj : Function.Injective Char.toNat := fun _ _ => Char.toNat_inj.1
  rw [← List.mem_map_of_injective hinj, hcodes]
  simp only [List.mem_cons, List.not_mem_nil, or_false]
  change _ ↔ d.toNat - 48 ≤ 5
  omega

theorem numeral_zeros_append {d : Char} (hd : d.isDigit = true) (k : Nat) :
    Count.Numeral (List.replicate k '0' ++ [d]) where
  nonempty := List.concat_ne_nil d _
  digits c hc := by
    rcases List.mem_append.1 hc with hc | hc
    · rw [List.eq_of_mem_replicate hc]
      rfl
    · rw [List.mem_singleton.1 hc, hd]

theorem mem_matches_numbers {p : List Char} : p ∈ numbers.matches' ↔ isLevelNumber p = true := by
  rw [isLevelNumber_iff, numbers]
  simp only [RegularExpression.matches'_mul, Language.mem_mul, mem_matches_sign, mem_matches_zeros,
    mem_matches_sum, List.mem_map, exists_exists_and_eq_and, mem_matches_char]
  constructor
  · rintro ⟨_, ⟨sign, hsign, _, ⟨k, rfl⟩, rfl⟩, _, ⟨d, hd, rfl⟩, rfl⟩
    have hdigit := isDigit_of_mem_levelDigits d hd
    have hds := numeral_zeros_append hdigit k
    have hle := (hds.value_le_iff (by decide)).2 ⟨k, d, rfl, (mem_levelDigits_iff hdigit).1 hd⟩
    exact ⟨sign, hsign, _, List.append_assoc .., hds, hle⟩
  · rintro ⟨sign, hsign, ds, rfl, hds, hle⟩
    obtain ⟨k, d, rfl, hd⟩ := (hds.value_le_iff (by decide)).1 hle
    have hdigit := hds.digits d (List.mem_append_right _ List.mem_cons_self)
    exact ⟨_, ⟨sign, hsign, _, ⟨k, rfl⟩, rfl⟩, _, ⟨d, (mem_levelDigits_iff hdigit).2 hd, rfl⟩,
      List.append_assoc ..⟩

theorem mem_matches_eitherCase {c : Char} (hc : c.isLower = true) {p : List Char} :
    p ∈ (eitherCase c).matches' ↔ ∃ d, p = [d] ∧ d.toLower = c := by
  rw [eitherCase, RegularExpression.matches'_add, Language.mem_add, mem_matches_char, mem_matches_char]
  simp only [Text.toLower_eq_iff hc, and_or_left, exists_or, exists_eq_right]

theorem mem_matches_name {name p : List Char} (h : ∀ c ∈ name, c.isLower = true) :
    p ∈ (name.map eitherCase).prod.matches' ↔ p.map Char.toLower = name := by
  induction name generalizing p with
  | nil =>
    rw [List.map_nil, List.prod_nil, RegularExpression.matches'_epsilon, Language.mem_one,
      List.map_eq_nil_iff]
  | cons c name ih =>
    obtain ⟨hc, hname⟩ := List.forall_mem_cons.1 h
    rw [List.map_cons, List.prod_cons, RegularExpression.matches'_mul, Language.mem_mul,
      List.map_eq_cons_iff]
    constructor
    · rintro ⟨first, hfirst, rest, hrest, rfl⟩
      rw [mem_matches_eitherCase hc] at hfirst
      obtain ⟨d, rfl, hd⟩ := hfirst
      exact ⟨d, rest, rfl, hd, (ih hname).1 hrest⟩
    · rintro ⟨d, rest, rfl, hd, hrest⟩
      exact ⟨[d], (mem_matches_eitherCase hc).2 ⟨d, rfl, hd⟩, rest, (ih hname).2 hrest, rfl⟩

theorem isLower_of_mem_levelNames : ∀ name ∈ levelNames, ∀ c ∈ name, c.isLower = true := by
  have hall : ∀ name ∈ levelNames, name.all Char.isLower = true := by decide
  exact fun name hname => List.all_eq_true.1 (hall name hname)

theorem mem_matches_names {p : List Char} : p ∈ names.matches' ↔ isLevelName p = true := by
  simp only [names, mem_matches_sum, List.mem_map, exists_exists_and_eq_and, isLevelName_iff]
  refine exists_congr fun name => and_congr_right fun hname => ?_
  exact mem_matches_name (isLower_of_mem_levelNames name hname)

theorem mem_matches_levels {p : List Char} : p ∈ levels.matches' ↔ isBareLevel p = true := by
  rw [levels, RegularExpression.matches'_add, Language.mem_add, mem_matches_numbers,
    mem_matches_names, isBareLevel, Bool.or_eq_true]

variable {accepts : List Char → Bool}

theorem normalize_of_entry {p : String} (hp : Entry p.toList) :
    normalize accepts p = String.ofList (scope accepts p.toList) := by
  have hentries : entries p.toList = [p.toList] := by
    rw [entries_of_noComma hp.noComma, hp.trim_eq, if_neg (by simpa using hp.nonempty)]
  rw [normalize, scopedEntries, hentries]
  simp [join]

theorem toList_target_append (p : String) :
    ("sno_stream=" ++ p).toList = target ++ '=' :: p.toList := by
  have htarget : "sno_stream=".toList = target ++ ['='] := by decide
  rw [String.toList_append, htarget, List.append_assoc, List.singleton_append]

theorem normalize_eq_scoped_iff {p : String} (hp : Entry p.toList) :
    normalize accepts p = "sno_stream=" ++ p ↔ accepts p.toList = true := by
  rw [normalize_of_entry hp, ← String.toList_inj, String.toList_ofList, toList_target_append]
  cases hb : accepts p.toList with
  | false =>
    rw [scope_of_not_accepts hb, iff_false_right Bool.false_ne_true]
    intro h
    have hlength := congrArg List.length h
    rw [List.length_append, List.length_cons] at hlength
    omega
  | true => rw [scope_of_accepts hb, iff_true_right rfl]

theorem normalize_of_not_accepts {p : String} (hp : Entry p.toList)
    (hb : accepts p.toList = false) : normalize accepts p = p := by
  rw [normalize_of_entry hp, scope_of_not_accepts hb, String.ofList_toList]

/-! What is never a level. -/

/-- The characters that levels are written in. -/
def isLevelChar (c : Char) : Bool := c.isAlphanum || c == '+'

theorem isLevelChar_iff {c : Char} :
    isLevelChar c = true ↔
      (65 ≤ c.toNat ∧ c.toNat ≤ 90 ∨ 97 ≤ c.toNat ∧ c.toNat ≤ 122) ∨
        (48 ≤ c.toNat ∧ c.toNat ≤ 57) ∨ c.toNat = 43 := by
  rw [isLevelChar, Char.isAlphanum, Bool.or_assoc, Bool.or_eq_true, Bool.or_eq_true,
    Text.isAlpha_iff, Char.isDigit_iff_toNat, beq_iff_eq, ← Char.toNat_inj]
  rfl

theorem isLevelChar_of_mem_sign {sign : List Char} {c : Char} (hs : sign ∈ Count.signs)
    (hc : c ∈ sign) : isLevelChar c = true := by
  rcases Count.mem_signs_iff.1 hs with rfl | rfl
  · exact absurd hc List.not_mem_nil
  · rw [List.mem_singleton.1 hc]
    rfl

theorem isAlpha_of_isLevelName {p : List Char} (h : isLevelName p = true) :
    ∀ c ∈ p, c.isAlpha = true := by
  intro c hc
  obtain ⟨name, hname, rfl⟩ := isLevelName_iff.1 h
  rw [← Char.isLower_toLower_eq_isAlpha]
  exact isLower_of_mem_levelNames _ hname _ (List.mem_map_of_mem hc)

theorem isLevelChar_of_mem {p : List Char} (h : isBareLevel p = true) :
    ∀ c ∈ p, isLevelChar c = true := by
  intro c hc
  rcases Bool.or_eq_true_iff.1 h with hnumber | hname
  · obtain ⟨sign, hsign, ds, rfl, hds, -⟩ := isLevelNumber_iff.1 hnumber
    rcases List.mem_append.1 hc with hc | hc
    · exact isLevelChar_of_mem_sign hsign hc
    · simp [isLevelChar, Char.isAlphanum, hds.digits c hc]
  · simp [isLevelChar, Char.isAlphanum, isAlpha_of_isLevelName hname c hc]

theorem isLevelChar_of_foreign {c : Char}
    (h : c = '=' ∨ c = '-' ∨ Text.isBlank c = true ∨ 128 ≤ c.toNat) : isLevelChar c = false := by
  rw [Bool.eq_false_iff, ne_eq, isLevelChar_iff]
  rcases h with rfl | rfl | hblank | hcode
  · decide
  · decide
  · simp only [Text.isBlank, Text.blankRanges, List.any_cons, List.any_nil, Bool.or_false,
      Bool.or_eq_true, Bool.and_eq_true, decide_eq_true_eq] at hblank
    omega
  · omega

theorem not_bare_of_mem {p : List Char} {c : Char} (hc : c ∈ p) (h : isLevelChar c = false) :
    isBareLevel p = false := by
  rw [Bool.eq_false_iff]
  intro hb
  rw [isLevelChar_of_mem hb c hc] at h
  cases h

/-- Behind its sign, if it has one, a number is read in one way only. -/
theorem digits_unique {sign sign' ds ds' : List Char} (hs : sign ∈ Count.signs)
    (hs' : sign' ∈ Count.signs) (hds : Count.Numeral ds) (hds' : Count.Numeral ds')
    (h : sign ++ ds = sign' ++ ds') : ds = ds' := by
  rcases Count.mem_signs_iff.1 hs with rfl | rfl <;> rcases Count.mem_signs_iff.1 hs' with rfl | rfl
  · exact h
  · exact absurd h (hds.ne_plus_cons ds')
  · exact absurd h.symm (hds'.ne_plus_cons ds)
  · exact List.append_cancel_left h

theorem not_bare_of_large {sign ds : List Char} (hs : sign ∈ Count.signs) (hds : Count.Numeral ds)
    (hl : 5 < Nat.ofDigitChars 10 ds 0) : isBareLevel (sign ++ ds) = false := by
  have hnumber : isLevelNumber (sign ++ ds) = false := by
    rw [Bool.eq_false_iff]
    intro h
    obtain ⟨sign', hs', ds', heq, hds', hle⟩ := isLevelNumber_iff.1 h
    rw [digits_unique hs hs' hds hds' heq] at hl
    omega
  have hname : isLevelName (sign ++ ds) = false := by
    rw [Bool.eq_false_iff]
    intro h
    obtain ⟨d, hd⟩ := List.exists_mem_of_ne_nil ds hds.nonempty
    have hletter := Text.isAlpha_iff.1 (isAlpha_of_isLevelName h d (List.mem_append_right sign hd))
    have hdigit : d.toNat ≤ 57 := (Char.isDigit_iff_toNat.1 (hds.digits d hd)).2
    omega
  rw [isBareLevel, hnumber, hname]
  rfl

/-- A directive is scoped iff it is in the language of the levels, and stays as it is if not; among
those that stay are all with a foreign character and all numbers above five. -/
theorem scoped_exactly_levels {accepts : List Char → Bool} (h : ParsesLevels accepts) (p : String)
    (hp : Entry p.toList) :
    (normalize accepts p = "sno_stream=" ++ p ↔ p.toList ∈ levels.matches') ∧
    (p.toList ∉ levels.matches' → normalize accepts p = p) ∧
    (∀ c ∈ p.toList, c = '=' ∨ c = '-' ∨ Text.isBlank c = true ∨ 128 ≤ c.toNat →
      normalize accepts p = p) ∧
    (∀ sign ∈ Count.signs, ∀ ds, p.toList = sign ++ ds → Count.Numeral ds →
      5 < Nat.ofDigitChars 10 ds 0 → normalize accepts p = p) := by
  have hstays (hb : isBareLevel p.toList = false) : normalize accepts p = p :=
    normalize_of_not_accepts hp ((h.eq_isBareLevel hp.nonempty).trans hb)
  refine ⟨?_, fun hl => ?_, fun c hc hforeign => ?_, fun sign hsign ds hds hnumeral hlarge => ?_⟩
  · rw [normalize_eq_scoped_iff hp, mem_matches_levels, h.eq_isBareLevel hp.nonempty]
  · rw [mem_matches_levels, Bool.not_eq_true] at hl
    exact hstays hl
  · exact hstays (not_bare_of_mem hc (isLevelChar_of_foreign hforeign))
  · refine hstays ?_
    rw [hds]
    exact not_bare_of_large hsign hnumeral hlarge

/-- A sign and zeros do not keep a level from being one, and a count that is five when it wraps around
is none. -/
theorem scoped_five_and_count_too_large :
    ParsesLevels isBareLevel ∧
    (Entry "+0005".toList ∧ "+0005".toList ∈ levels.matches' ∧
      normalize isBareLevel "+0005" = "sno_stream=" ++ "+0005") ∧
    (Entry "18446744073709551621".toList ∧ (Nat.ofDigitChars 10 "18446744073709551621".toList 0) %
        UInt64.size = 5 ∧ normalize isBareLevel "18446744073709551621" = "18446744073709551621") := by
  have hfive : Entry "+0005".toList := by decide
  have hlarge : Entry "18446744073709551621".toList := by decide
  have hlevel : "+0005".toList ∈ levels.matches' := mem_matches_levels.2 (by decide)
  have hscoped := scoped_exactly_levels parsesLevels_isBareLevel "+0005" hfive
  have hkept := scoped_exactly_levels parsesLevels_isBareLevel "18446744073709551621" hlarge
  refine ⟨parsesLevels_isBareLevel, ⟨hfive, hlevel, hscoped.1.2 hlevel⟩, hlarge, by decide, ?_⟩
  exact hkept.2.2.2 [] (by decide) _ rfl (by decide) (by decide)

end Directive
end Retrace
