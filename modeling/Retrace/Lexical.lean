/-! The characters and numbers that a scanner of lines compares against, the integer code of a
character that may be missing, and the devices that exist before a program opens any, by their unit
numbers. -/
namespace Retrace
namespace Lexical

/-! The first character of a line says what the line is. -/

def comment : Char := '*'
def continuation : Char := '.'
def control : Char := '-'

/-! Delimiters. -/

def comma : Char := ','
def blank : Char := ' '
def singleQuote : Char := '\''
def doubleQuote : Char := '"'
def endOfLine : Char := '\n'
def leftParen : Char := '('
def rightParen : Char := ')'
def emptyText : List Char := []

def separators : List Char := [' ', '\t']

def isSeparator (c : Char) : Bool := separators.contains c

/-! Numbers. -/

/-- The code for the end of the text. -/
def endCode : Int := -1

def noAddress : Int := -1

def zero : Int := 0
def stackSize : Nat := 128
def codeSize : Nat := 1024

/-- The code point of a character, and `endCode` where there is none. -/
def charCode : Option Char → Int
  | some c => c.toNat
  | none => endCode

@[simp] theorem charCode_some (c : Char) : charCode (some c) = c.toNat := rfl
@[simp] theorem charCode_none : charCode none = endCode := rfl

theorem charCode_eq_endCode_iff {c : Option Char} : charCode c = endCode ↔ c = none := by
  cases c with
  | none => simp
  | some c => simp [endCode]

end Lexical

inductive Device where
  /-- Reads as empty, and swallows what is written. -/
  | null
  | standardInput
  | standardOutput
  | standardError
  deriving DecidableEq, Repr

structure UnknownDevice where
  code : Int
  deriving DecidableEq, Repr

def UnknownDevice.message (e : UnknownDevice) : String :=
  "unknown predefined stream id " ++ toString e.code

namespace Device

def code : Device → Int
  | null => -1
  | standardInput => 0
  | standardOutput => 1
  | standardError => 2

def ofCode : Int → Except UnknownDevice Device
  | -1 => .ok null
  | 0 => .ok standardInput
  | 1 => .ok standardOutput
  | 2 => .ok standardError
  | code => .error ⟨code⟩

theorem ofCode_code (d : Device) : ofCode d.code = .ok d := by cases d <;> rfl

theorem ofCode_eq_ok_iff {code : Int} {d : Device} : ofCode code = .ok d ↔ code = d.code := by
  constructor
  · intro h
    unfold ofCode at h
    split at h <;> cases h <;> rfl
  · rintro rfl
    exact ofCode_code d

end Device
end Retrace
