import Retrace.Proofs.WellFormed
import Mathlib.Data.Stream.Init

/-! The rest of a text as numbers. A reader that is asked for the code of the next character over and
over answers the code points of what is left and then the code of the end for good. No character has
that code, so the numbers up to the first such one tell the rest, and the rest tells the numbers. -/
namespace Retrace

namespace Lexical

/-- The code as a signed word of 32 bits. A code point too large for one would pass for the end. -/
def wordCode (c : Option Char) : Int32 :=
  (c.bind fun c => if c.toNat ≤ Int32.maxValue.toInt then some (Int32.ofNat c.toNat) else none).getD
    (Int32.ofInt endCode)

theorem toNat_le (c : Char) : c.toNat ≤ 0x10ffff := by
  have hvalid : c.toNat < 0xd800 ∨ 0xdfff < c.toNat ∧ c.toNat < 0x110000 := c.valid
  omega

theorem toInt_wordCode (c : Option Char) : (wordCode c).toInt = charCode c := by
  cases c with
  | none => rfl
  | some c =>
    have hc := toNat_le c
    have hmax : Int32.maxValue.toInt = 2147483647 := rfl
    rw [wordCode, Option.bind_some, if_pos (by omega), Option.getD_some, charCode_some,
      Int32.toInt_ofNat_of_lt (by omega)]

def char? (code : Int) : Option Char :=
  if 0 ≤ code ∧ code.toNat.isValidChar then some (Char.ofNat code.toNat) else none

theorem char?_charCode (c : Option Char) : char? (charCode c) = c := by
  cases c with
  | none => rfl
  | some c =>
    have hcode : 0 ≤ charCode (some c) ∧ (charCode (some c)).toNat.isValidChar :=
      ⟨Int.natCast_nonneg _, c.valid⟩
    rw [char?, if_pos hcode]
    exact congrArg some c.ofNat_toNat

theorem charCode_injective : Function.Injective charCode :=
  Function.LeftInverse.injective char?_charCode

/-- The characters of the codes up to the first code of the end, if all those are characters. -/
def decode : List Int → Option (List Char)
  | [] => some []
  | code :: codes =>
    if code = endCode then some []
    else (char? code).bind fun c => (decode codes).map (c :: ·)

theorem decode_end (codes : List Int) : decode (endCode :: codes) = some [] := if_pos rfl

theorem decode_char (c : Char) (codes : List Int) :
    decode (charCode (some c) :: codes) = (decode codes).map (c :: ·) := by
  have hne : charCode (some c) ≠ endCode := mt charCode_eq_endCode_iff.1 (Option.some_ne_none c)
  rw [decode, if_neg hne, char?_charCode]
  rfl

end Lexical

namespace Reader

/-- The codes of the next characters, one after the other, without an end. -/
def codes (r : Reader) : Stream' Int :=
  Stream'.unfolds (fun r => Lexical.charCode r.next.answer) (fun r => r.next.after) r

theorem codes_eq (r : Reader) :
    r.codes = Stream'.cons (Lexical.charCode r.next.answer) r.next.after.codes :=
  Stream'.unfolds_eq ..

theorem get_codes (r : Reader) (n : Nat) : r.codes.get n = Lexical.charCode r.rest[n]? := by
  induction n generalizing r with
  | zero => rw [codes_eq, Stream'.get_zero_cons, answer_next, List.head?_eq_getElem?]
  | succ n ih => rw [codes_eq, Stream'.get_succ_cons, ih, rest_after_next, List.getElem?_tail]

theorem codes_eq_append (r : Reader) :
    r.codes = r.rest.map (fun c => (c.toNat : Int)) ++ₛ Stream'.const Lexical.endCode := by
  refine Stream'.ext fun n => ?_
  rw [get_codes]
  by_cases hn : n < r.rest.length
  · rw [Stream'.get_append_left n _ _ (by rwa [List.length_map]), List.getElem?_eq_getElem hn,
      List.getElem_map]
    rfl
  · obtain ⟨k, rfl⟩ := Nat.exists_eq_add_of_le (Nat.not_lt.1 hn)
    have hend := Stream'.get_append_right k (r.rest.map fun c => (c.toNat : Int))
      (Stream'.const Lexical.endCode)
    rw [List.length_map] at hend
    rw [hend, List.getElem?_eq_none (Nat.not_lt.1 hn)]
    rfl

theorem codes_eq_iff {r s : Reader} : r.codes = s.codes ↔ r.rest = s.rest := by
  constructor
  · intro h
    refine List.ext_getElem? fun n => Lexical.charCode_injective ?_
    rw [← get_codes, ← get_codes, h]
  · intro h
    refine Stream'.ext fun n => ?_
    rw [get_codes, get_codes, h]

theorem get_codes_eq_end_iff {r : Reader} {n : Nat} :
    r.codes.get n = Lexical.endCode ↔ r.rest.length ≤ n := by
  rw [get_codes, Lexical.charCode_eq_endCode_iff, List.getElem?_eq_none_iff]

theorem afterAll_nextCodes (r : Reader) (n : Nat) :
    r.afterAll (List.replicate n .nextCode) = { r with cursor := r.cursor + min n r.rest.length } := by
  induction n generalizing r with
  | zero => simp
  | succ n ih =>
    rw [List.replicate_succ, afterAll_cons]
    change r.next.after.afterAll _ = _
    rw [ih, rest_after_next, after_next]
    cases hr : r.rest with
    | nil => simp
    | cons c cs =>
      rw [if_neg (List.cons_ne_nil c cs), List.tail_cons, List.length_cons]
      simp only [mk.injEq, true_and, and_true]
      omega

theorem replies_nextCodes (r : Reader) (n : Nat) :
    r.replies (List.replicate n .nextCode) = (r.codes.take n).map fun code => .ok (.code code) := by
  induction n generalizing r with
  | zero => rfl
  | succ n ih =>
    rw [List.replicate_succ, replies_cons, codes_eq, Stream'.take_succ_cons, List.map_cons]
    exact congrArg _ (ih r.next.after)

theorem decode_take_codes (r : Reader) (n : Nat) :
    Lexical.decode (r.codes.take n) = some (r.rest.take n) := by
  induction n generalizing r with
  | zero => rw [List.take_zero]; rfl
  | succ n ih =>
    rw [codes_eq, Stream'.take_succ_cons, answer_next]
    cases hr : r.rest with
    | nil => exact Lexical.decode_end _
    | cons c cs =>
      rw [List.head?_cons, Lexical.decode_char, ih, rest_after_next, hr]
      rfl

/-- A reader spells out a rest by the codes that it answers. -/
structure Spells (r : Reader) (rest : List Char) : Prop where
  codes : r.codes = rest.map (fun c => (c.toNat : Int)) ++ₛ Stream'.const Lexical.endCode
  range : ∀ n < rest.length, 0 ≤ r.codes.get n ∧ r.codes.get n ≤ 0x10ffff
  ends : ∀ n, r.codes.get n = Lexical.endCode ↔ rest.length ≤ n
  decoded : ∀ n, Lexical.decode (r.codes.take n) = some (rest.take n)
  calls : ∀ n, r.replies (List.replicate n .nextCode) =
    (r.codes.take n).map fun code => .ok (.code code)
  after : ∀ n, r.afterAll (List.replicate n .nextCode) =
    { r with cursor := r.cursor + min n rest.length }

theorem spells_rest (r : Reader) : r.Spells r.rest where
  codes := r.codes_eq_append
  range n hn := by
    have hc := Lexical.toNat_le r.rest[n]
    rw [get_codes, List.getElem?_eq_getElem hn, Lexical.charCode_some]
    omega
  ends _ := get_codes_eq_end_iff
  decoded := r.decode_take_codes
  calls := r.replies_nextCodes
  after := r.afterAll_nextCodes

theorem perform_peekCode (r : Reader) :
    (r.perform .peekCode).answer = .ok (.code (r.codes.get 0)) ∧ (r.perform .peekCode).after = r := by
  rw [get_codes, ← List.head?_eq_getElem?, ← answer_peek]
  exact ⟨rfl, r.after_peek⟩

theorem WellFormed.rest_eq_nil_iff {r : Reader} (hr : r.WellFormed) :
    r.rest = [] ↔ r.isClosed = true ∨ r.cursor = r.length := by
  rw [rest, List.drop_eq_nil_iff, isClosed_iff]
  change r.length ≤ r.cursor ↔ _
  cases ht : r.text with
  | none => simp [length, ht]
  | some text =>
    have hle := hr.cursor_le (by simp [ht])
    simp only [reduceCtorEq, false_or]
    omega

end Reader

/-- The codes that a reader answers spell out the rest of its text and then the end for good, so readers
with the same codes have the same rest. -/
theorem Origin.codes_tell_rest (origin other : Origin) (past otherPast : List Step) :
    let r := origin.reader past
    let s := other.reader otherPast
    r.Spells r.rest ∧
    (r.codes = s.codes ↔ r.rest = s.rest) ∧
    ((r.perform .peekCode).answer = .ok (.code (r.codes.get 0)) ∧
      (r.perform .peekCode).after = r) ∧
    (r.codes.get 0 = Lexical.endCode ↔ r.isClosed = true ∨ r.cursor = r.length) ∧
    ∀ c, (Lexical.wordCode c).toInt = Lexical.charCode c := by
  intro r s
  refine ⟨r.spells_rest, Reader.codes_eq_iff, r.perform_peekCode, ?_, Lexical.toInt_wordCode⟩
  rw [Reader.get_codes_eq_end_iff, Nat.le_zero, List.length_eq_zero_iff]
  exact (origin.wellFormed_reader past).rest_eq_nil_iff

/-- Neither the least code point nor the greatest passes for the end. -/
example : (Reader.codes ((Origin.text ['\x00', Char.ofNat 0x10ffff]).reader [])).take 4 =
    [0, 0x10ffff, -1, -1] := rfl

end Retrace
