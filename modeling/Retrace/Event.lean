import Retrace.Text

/-! What a call leaves behind: an answer or the reason why it was refused, the state after it, and what it
logged. Every refusal but that of a closed text names the call that was refused. An event of a single
read or a block read holds the cursor before the move; every other move logs the cursor it ends on. -/
namespace Retrace

inductive Fault where
  /-- The text is gone. -/
  | closed
  /-- A count or the end of a range lies past the largest one allowed. -/
  | outOfRange (call : String) (index limit : Nat)
  | badArgument (call reason : String)
  /-- The mark to go back to fell off a full stack. -/
  | markLost (call : String) (depth : Nat)
  deriving DecidableEq, Repr

namespace Fault

def message : Fault → String
  | closed => "stream closed"
  | outOfRange call index limit =>
      call ++ ": index " ++ toString index ++ " out of range (limit " ++ toString limit ++ ")"
  | badArgument call reason => call ++ ": " ++ reason
  | markLost call depth =>
      call ++ ": mark was evicted from the mark stack (depth " ++ toString depth ++ ")"

def isClosed : Fault → Bool
  | closed => true
  | _ => false

theorem isClosed_iff {f : Fault} : f.isClosed = true ↔ f = closed := by
  cases f <;> simp [isClosed]

end Fault

inductive Event where
  | cleared
  | loaded (length : Nat)
  | closed (cursor : Nat)
  | read (cursor : Nat) (char : Char)
  | readInto (cursor count : Nat)
  | skipped (requested applied : Int) (cursor : Nat)
  | unread (count cursor : Nat)
  | marked (cursor held : Nat)
  | reset (cursor : Nat)
  | rewound (cursor held : Nat)
  /-- A refusal that a look ahead reported as the end of the text. -/
  | peekHid (fault : Fault)
  /-- A refusal that a read reported as the end of the text. -/
  | nextHid (fault : Fault)
  deriving DecidableEq, Repr

namespace Event

inductive Level where
  | debug | trace
  deriving DecidableEq, Repr

def Level.name : Level → String
  | debug => "DEBUG"
  | trace => "TRACE"

inductive Field where
  | number (value : Int)
  | text (value : String)
  deriving DecidableEq, Repr

/-- Cursor moves are traced; what changes or ends the text is a matter of debugging. -/
def level : Event → Level
  | cleared | loaded _ | closed _ | peekHid _ | nextHid _ => .debug
  | _ => .trace

def message : Event → String
  | cleared => "stream hard reset"
  | loaded _ => "stream opened"
  | closed _ => "stream closed"
  | read .. => "read"
  | readInto .. => "read_into"
  | skipped .. => "skip"
  | unread .. => "pushback"
  | marked .. => "mark"
  | reset _ => "reset"
  | rewound .. => "rewind"
  | peekHid _ => "peek reported as EOF"
  | nextHid _ => "getch reported as EOF"

def fields : Event → List (String × Field)
  | cleared => []
  | loaded length => [("len", .number length)]
  | closed cursor => [("offset", .number cursor)]
  | read cursor char => [("pos", .number cursor), ("ch", .text (Text.quoted char))]
  | readInto cursor count => [("pos", .number cursor), ("count", .number count)]
  | skipped requested applied cursor =>
      [("requested", .number requested), ("applied", .number applied), ("pos", .number cursor)]
  | unread count cursor => [("count", .number count), ("pos", .number cursor)]
  | marked cursor held => [("pos", .number cursor), ("held", .number held)]
  | reset cursor => [("pos", .number cursor)]
  | rewound cursor held => [("pos", .number cursor), ("held", .number held)]
  | peekHid fault => [("err", .text fault.message)]
  | nextHid fault => [("err", .text fault.message)]

/-- An event as it stands in the log. -/
structure Record where
  level : Level
  message : String
  fields : List (String × Field)
  deriving DecidableEq, Repr

def record (e : Event) : Record := ⟨e.level, e.message, e.fields⟩

def Field.number? : Field → Option Int
  | number value => some value
  | text _ => none

def Record.number? (r : Record) (name : String) : Option Int :=
  (r.fields.lookup name).bind Field.number?

end Event

/-- The answer of a call, the state after it, and the events that it logged, in order. -/
structure Turn (σ α : Type) where
  answer : α
  after : σ
  log : List Event := []

namespace Turn

def map {σ α β : Type} (f : α → β) (t : Turn σ α) : Turn σ β := { t with answer := f t.answer }

/-- The same turn of a larger state. -/
def lift {σ τ α : Type} (f : σ → τ) (t : Turn σ α) : Turn τ α := { t with after := f t.after }

variable {σ τ α β : Type}

@[simp] theorem answer_map (f : α → β) (t : Turn σ α) : (t.map f).answer = f t.answer := rfl
@[simp] theorem after_map (f : α → β) (t : Turn σ α) : (t.map f).after = t.after := rfl
@[simp] theorem log_map (f : α → β) (t : Turn σ α) : (t.map f).log = t.log := rfl

@[simp] theorem answer_lift (f : σ → τ) (t : Turn σ α) : (t.lift f).answer = t.answer := rfl
@[simp] theorem after_lift (f : σ → τ) (t : Turn σ α) : (t.lift f).after = f t.after := rfl
@[simp] theorem log_lift (f : σ → τ) (t : Turn σ α) : (t.lift f).log = t.log := rfl

end Turn
end Retrace
