/-! What texts are read and written by: counts of 64 bits in decimal digits, blanks at both ends of a
text, and characters as they stand in a log. Digits that denote more than the largest count are refused,
whatever their number; leading zeros are free. -/
namespace Retrace
namespace Count

def top : Nat := UInt64.size - 1

def add (a b : Nat) : Nat := min (a + b) top

theorem add_eq {a b : Nat} (h : a + b ≤ top) : add a b = a + b := by
  simp [add, Nat.min_eq_left h]

def pushDigit (value : Nat) (c : Char) : Option Nat :=
  if c.isDigit then
    let next := 10 * value + (c.toNat - '0'.toNat)
    if next ≤ top then some next else none
  else none

/-- The value of decimal digits behind the value read so far. -/
def readDigits (value : Nat) : List Char → Option Nat
  | [] => some value
  | c :: rest => (pushDigit value c).bind fun next => readDigits next rest

@[simp] theorem readDigits_nil (value : Nat) : readDigits value [] = some value := rfl

@[simp] theorem readDigits_cons (value : Nat) (c : Char) (rest : List Char) :
    readDigits value (c :: rest) = (pushDigit value c).bind fun next => readDigits next rest := rfl

def readUnsigned : List Char → Option Nat
  | [] => none
  | c :: rest => readDigits 0 (c :: rest)

/-- One or more digits, behind at most one plus sign. -/
def read? : List Char → Option Nat
  | '+' :: rest => readUnsigned rest
  | cs => readUnsigned cs

end Count

namespace Text

/-- The code points of the Unicode property White_Space, as closed ranges. -/
def blankRanges : List (Nat × Nat) :=
  [(0x9, 0xd), (0x20, 0x20), (0x85, 0x85), (0xa0, 0xa0), (0x1680, 0x1680), (0x2000, 0x200a),
    (0x2028, 0x2029), (0x202f, 0x202f), (0x205f, 0x205f), (0x3000, 0x3000)]

def isBlank (c : Char) : Bool :=
  blankRanges.any fun range => range.1 ≤ c.toNat && c.toNat ≤ range.2

def trimStart (cs : List Char) : List Char := cs.dropWhile isBlank

def trimEnd (cs : List Char) : List Char := (trimStart cs.reverse).reverse

def trim (cs : List Char) : List Char := trimEnd (trimStart cs)

theorem trimStart_append_of_blank {pad : List Char} (h : ∀ c ∈ pad, isBlank c = true)
    (cs : List Char) : trimStart (pad ++ cs) = trimStart cs := by
  induction pad with
  | nil => rfl
  | cons c pad ih =>
    have hc := h c List.mem_cons_self
    simpa [trimStart, hc] using ih fun d hd => h d (List.mem_cons_of_mem c hd)

theorem trimStart_eq_self_iff {cs : List Char} :
    trimStart cs = cs ↔ ∀ c ∈ cs.head?, isBlank c = false := by
  cases cs with
  | nil => simp [trimStart]
  | cons c cs =>
    cases hc : isBlank c with
    | false => simp [trimStart, hc]
    | true =>
      have hlen : (List.dropWhile isBlank cs).length ≤ cs.length :=
        (List.dropWhile_sublist isBlank).length_le
      have hne : List.dropWhile isBlank cs ≠ c :: cs := fun h => by
        rw [h, List.length_cons] at hlen
        omega
      simp [trimStart, hc, hne]

theorem trimEnd_eq_self_iff {cs : List Char} :
    trimEnd cs = cs ↔ ∀ c ∈ cs.getLast?, isBlank c = false := by
  unfold trimEnd
  rw [List.reverse_eq_iff, trimStart_eq_self_iff, List.head?_reverse]

theorem trimEnd_append_of_blank {pad : List Char} (h : ∀ c ∈ pad, isBlank c = true)
    (cs : List Char) : trimEnd (cs ++ pad) = trimEnd cs := by
  unfold trimEnd
  rw [List.reverse_append, trimStart_append_of_blank fun c hc => h c (List.mem_reverse.1 hc)]

theorem trimStart_eq_nil_of_blank {cs : List Char} (h : ∀ c ∈ cs, isBlank c = true) :
    trimStart cs = [] := by
  have hpad := trimStart_append_of_blank h []
  rwa [List.append_nil] at hpad

theorem trim_pad {left right : List Char} (hl : ∀ c ∈ left, isBlank c = true)
    (hr : ∀ c ∈ right, isBlank c = true) (cs : List Char) : trim (left ++ cs ++ right) = trim cs := by
  have hstart : trimStart (cs ++ right) =
      if (trimStart cs).isEmpty then trimStart right else trimStart cs ++ right := List.dropWhile_append
  rw [trim, trim, List.append_assoc, trimStart_append_of_blank hl, hstart]
  split
  · next hnil => rw [trimStart_eq_nil_of_blank hr, List.isEmpty_iff.1 hnil]
  · exact trimEnd_append_of_blank hr _

theorem trimEnd_prefix_self (cs : List Char) : trimEnd cs <+: cs := by
  rw [← List.reverse_suffix, trimEnd, List.reverse_reverse]
  exact List.dropWhile_suffix isBlank

theorem isBlank_of_head?_trimStart {cs : List Char} :
    ∀ c ∈ (trimStart cs).head?, isBlank c = false := by
  intro c hc
  have h := List.head?_dropWhile_not isBlank cs
  rwa [show (cs.dropWhile isBlank).head? = some c from hc] at h

theorem isBlank_of_head?_trim {cs : List Char} : ∀ c ∈ (trim cs).head?, isBlank c = false := by
  intro c hc
  obtain ⟨rest, hrest⟩ := trimEnd_prefix_self (trimStart cs)
  have hstart : (trimStart cs).head? = some c := by
    rw [← hrest, List.head?_append, show (trimEnd (trimStart cs)).head? = some c from hc]
    rfl
  exact isBlank_of_head?_trimStart c hstart

theorem isBlank_of_getLast?_trim {cs : List Char} :
    ∀ c ∈ (trim cs).getLast?, isBlank c = false := by
  intro c hc
  rw [trim, trimEnd, List.getLast?_reverse] at hc
  exact isBlank_of_head?_trimStart c hc

theorem mem_of_mem_trim {cs : List Char} {c : Char} (h : c ∈ trim cs) : c ∈ cs :=
  (List.dropWhile_sublist isBlank).subset ((trimEnd_prefix_self _).subset h)

/-- Control characters: the codes below the blank, and those from delete to 0x9f. -/
def isControl (c : Char) : Bool := c.toNat < 0x20 || (0x7f ≤ c.toNat && c.toNat < 0xa0)

/-- The code of a character in hexadecimal, in lower case and as short as it gets. -/
def codeDigits (c : Char) : List Char := Nat.toDigits 16 c.toNat

/-- A character as it is written between quotes. Beside the control characters, those that join on to the
character before them and those that have no shape would be written by their codes; which they are
depends on the edition of Unicode, and here they are written bare. -/
def escape (c : Char) : List Char :=
  match c with
  | '\x00' => ['\\', '0']
  | '\t' => ['\\', 't']
  | '\r' => ['\\', 'r']
  | '\n' => ['\\', 'n']
  | '\'' => ['\\', '\'']
  | '\\' => ['\\', '\\']
  | c => if isControl c then ['\\', 'u', '\x7b'] ++ codeDigits c ++ ['\x7d'] else [c]

def quoted (c : Char) : String := String.ofList (['\''] ++ escape c ++ ['\''])

end Text
end Retrace
