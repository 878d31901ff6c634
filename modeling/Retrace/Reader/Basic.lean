import Retrace.Event
import Retrace.Marks
import Retrace.Position

/-! A reader holds a text and a cursor, the number of characters before the next one. Its line
is whatever its owner last said: no character of the text changes it. Loading and clearing
replace the text, forget the cursor and the marks, and keep the line. Closing is for good: a closed
reader has no text any more, and its cursor stays where it was. -/
namespace Retrace

structure Settings where
  markDepth : Nat := 1
  firstLine : Nat := 0
  deriving DecidableEq, Repr, Inhabited

inductive Setting where
  | markDepth (depth : Nat)
  | firstLine (line : Nat)
  deriving DecidableEq, Repr

namespace Settings

def standard : Settings := {}

def set (s : Settings) : Setting → Settings
  | .markDepth depth => { s with markDepth := depth }
  | .firstLine line => { s with firstLine := line }

/-- The standard settings, overridden one after the other. -/
def ofList (overrides : List Setting) : Settings := overrides.foldl set standard

/-- A reader always keeps at least one mark. -/
def effectiveDepth (s : Settings) : Nat := max s.markDepth 1

theorem effectiveDepth_pos (s : Settings) : 0 < s.effectiveDepth := by
  unfold effectiveDepth; omega

end Settings

structure Reader where
  /-- The characters, as long as the reader is open. -/
  text : Option (List Char)
  cursor : Nat
  marks : Marks
  line : Nat
  deriving DecidableEq, Repr

namespace Reader

def blank (s : Settings) : Reader where
  text := some []
  cursor := 0
  marks := { depth := s.effectiveDepth }
  line := s.firstLine

def isClosed (r : Reader) : Bool := r.text.isNone

def length (r : Reader) : Nat := (r.text.getD []).length

/-- The characters from the cursor on, none once closed. -/
def rest (r : Reader) : List Char := (r.text.getD []).drop r.cursor

def position (r : Reader) : Position := ⟨r.line, r.cursor⟩

def setLine (r : Reader) (line : Nat) : Reader := { r with line }

/-- A reader can always mark its cursor, open or not. -/
def canMark (_ : Reader) : Bool := true

/-- All that can be asked of a reader without looking at a character. -/
structure Status where
  isClosed : Bool
  offset : Nat
  length : Nat
  isEmpty : Bool
  line : Nat
  marksHeld : Nat
  markDepth : Nat
  deriving DecidableEq, Repr

def status (r : Reader) : Status where
  isClosed := r.isClosed
  offset := r.cursor
  length := r.length
  isEmpty := r.length == 0
  line := r.line
  marksHeld := r.marks.held.length
  markDepth := r.marks.depth

@[simp] theorem status_offset (r : Reader) : r.status.offset = r.cursor := rfl

@[simp] theorem status_marksHeld (r : Reader) : r.status.marksHeld = r.marks.held.length := rfl

@[simp] theorem status_markDepth (r : Reader) : r.status.markDepth = r.marks.depth := rfl

/-- The text, or the refusal of every call on a closed reader. -/
def contents (r : Reader) : Except Fault (List Char) :=
  match r.text with
  | some text => .ok text
  | none => .error .closed

/-- A refusal that changes nothing and logs nothing. -/
def refuse {α : Type} (r : Reader) (fault : Fault) : Turn Reader (Except Fault α) :=
  ⟨.error fault, r, []⟩

/-- Act on the text, or refuse once it is gone. -/
def withText {α : Type} (r : Reader) (act : List Char → Turn Reader (Except Fault α)) :
    Turn Reader (Except Fault α) :=
  match r.text with
  | some text => act text
  | none => r.refuse .closed

variable {α : Type}

@[simp] theorem answer_refuse (r : Reader) (fault : Fault) :
    (r.refuse fault : Turn Reader (Except Fault α)).answer = .error fault := rfl
@[simp] theorem after_refuse (r : Reader) (fault : Fault) :
    (r.refuse fault : Turn Reader (Except Fault α)).after = r := rfl
@[simp] theorem log_refuse (r : Reader) (fault : Fault) :
    (r.refuse fault : Turn Reader (Except Fault α)).log = [] := rfl

theorem withText_of_open {r : Reader} {text : List Char} (h : r.text = some text)
    (act : List Char → Turn Reader (Except Fault α)) : r.withText act = act text := by
  simp [withText, h]

theorem withText_of_closed {r : Reader} (h : r.text = none)
    (act : List Char → Turn Reader (Except Fault α)) : r.withText act = r.refuse .closed := by
  simp [withText, h]

@[simp] theorem isClosed_iff {r : Reader} : r.isClosed = true ↔ r.text = none := by
  simp [isClosed]

theorem exists_text_of_open {r : Reader} (h : r.isClosed = false) :
    ∃ text, r.text = some text := by
  simpa [isClosed, Option.isSome_iff_exists] using h

theorem rest_of_open {r : Reader} {text : List Char} (h : r.text = some text) :
    r.rest = text.drop r.cursor := by
  simp [rest, h]

theorem rest_of_closed {r : Reader} (h : r.text = none) : r.rest = [] := by
  simp [rest, h]

theorem length_rest (r : Reader) : r.rest.length = r.length - r.cursor := by
  simp [rest, length]

def clear (r : Reader) : Turn Reader (Except Fault Unit) :=
  r.withText fun _ =>
    ⟨.ok (), { r with text := some [], cursor := 0, marks := r.marks.clear }, [.cleared]⟩

def load (r : Reader) (text : List Char) : Turn Reader (Except Fault Unit) :=
  r.withText fun _ =>
    ⟨.ok (), { r with text := some text, cursor := 0, marks := r.marks.clear },
      [.cleared, .loaded text.length]⟩

/-- Let go of the text. Closing once more changes nothing and logs nothing. -/
def close (r : Reader) : Turn Reader Unit :=
  ⟨(), { r with text := none, marks := r.marks.clear },
    if r.isClosed then [] else [.closed r.cursor]⟩

/-- An open reader never has to wait for a character. -/
def ready (r : Reader) : Except Fault Bool := r.contents.map fun _ => true

@[simp] theorem text_close (r : Reader) : r.close.after.text = none := rfl
@[simp] theorem cursor_close (r : Reader) : r.close.after.cursor = r.cursor := rfl
@[simp] theorem line_close (r : Reader) : r.close.after.line = r.line := rfl
@[simp] theorem marks_close (r : Reader) : r.close.after.marks = r.marks.clear := rfl

theorem after_load {r : Reader} (h : r.text ≠ none) (text : List Char) :
    (r.load text).after = ⟨some text, 0, r.marks.clear, r.line⟩ := by
  obtain ⟨old, h⟩ := Option.ne_none_iff_exists'.1 h
  simp [load, withText_of_open h]

theorem after_clear (r : Reader) : r.clear.after = (r.load []).after := by
  cases h : r.text <;> simp [clear, load, withText, h]

end Reader
end Retrace
