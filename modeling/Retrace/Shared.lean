import Retrace.History

/-! Readers behind handles. A handle points at the cell that a reader lies in, and a new handle points where
the one points that it was made from; it has nothing of its own, neither a cursor nor marks. Every
request holds the lock of its cell from its first look at the reader to its last, so the requests of all
clients are served one after the other. -/
namespace Retrace

/-- What can be asked through a handle. -/
inductive Request where
  /-- One more handle. -/
  | clone
  | peek
  | next
  | position
  | drain
  /-- A block of calls, with nothing in between. -/
  | block (steps : List Step)
  deriving DecidableEq, Repr

def Request.added : Request → Nat
  | clone => 1
  | _ => 0

structure Call where
  handle : Nat
  request : Request
  deriving DecidableEq, Repr

inductive Answer where
  | handle (number : Nat)
  | value (v : Value)
  | replies (list : List Reply)

/-- What a request does to the reader; a handle that it adds gets the given number. -/
def Reader.serve (r : Reader) (number : Nat) : Request → Turn Reader Answer
  | .clone => ⟨.handle number, r, []⟩
  | .peek => r.peek.map fun c => .value (.char c)
  | .next => r.next.map fun c => .value (.char c)
  | .position => ⟨.value (.position r.position), r, []⟩
  | .drain => r.drain.map fun cs => .value (.text cs)
  | .block steps => (r.block steps).map .replies

/-- The turns of a list of calls, unless one of them cannot be made at that time. -/
def turnsBy? {σ κ α : Type} (call? : σ → κ → Option (Turn σ α)) (s : σ) :
    List κ → Option (List (Turn σ α))
  | [] => some []
  | c :: calls => do
    let turn ← call? s c
    let later ← turnsBy? call? turn.after calls
    return turn :: later

theorem turnsBy?_cons {σ κ α : Type} (call? : σ → κ → Option (Turn σ α)) (s : σ) (c : κ)
    (calls : List κ) :
    turnsBy? call? s (c :: calls) =
      (call? s c).bind fun turn => (turnsBy? call? turn.after calls).bind fun later =>
        some (turn :: later) :=
  rfl

/-- Cells with a reader in each, and the cell that each handle points at. -/
structure Arena (size : Nat) where
  cells : Vector Reader size
  handles : List (Fin size)
  deriving DecidableEq, Repr

namespace Arena

variable {size : Nat}

def share (r : Reader) : Arena 1 := ⟨#v[r], [0]⟩

def reader (a : Arena size) (cell : Fin size) : Reader := a.cells[cell]

def put (a : Arena size) (cell : Fin size) (r : Reader) : Arena size :=
  { a with cells := a.cells.set cell r }

@[simp] theorem put_self (a : Arena size) (cell : Fin size) : a.put cell (a.reader cell) = a := by
  simp [put, reader]

@[simp] theorem reader_put_self (a : Arena size) (cell : Fin size) (r : Reader) :
    (a.put cell r).reader cell = r := by
  simp [put, reader]

theorem reader_put_of_ne (a : Arena size) {cell other : Fin size} (h : other ≠ cell) (r : Reader) :
    (a.put cell r).reader other = a.reader other := by
  simp [put, reader, Ne.symm (Fin.val_ne_of_ne h)]

/-- As many more handles that point at the cell. -/
def point (a : Arena size) (cell : Fin size) (count : Nat) : Arena size :=
  { a with handles := a.handles ++ List.replicate count cell }

@[simp] theorem reader_point (a : Arena size) (cell other : Fin size) (count : Nat) :
    (a.point cell count).reader other = a.reader other := rfl

def serve (a : Arena size) (cell : Fin size) (q : Request) : Turn (Arena size) Answer :=
  ((a.reader cell).serve a.handles.length q).lift fun reader => (a.put cell reader).point cell q.added

def call? (a : Arena size) (c : Call) : Option (Turn (Arena size) Answer) :=
  a.handles[c.handle]?.map fun cell => a.serve cell c.request

def turns? (a : Arena size) : List Call → Option (List (Turn (Arena size) Answer)) :=
  turnsBy? call? a

theorem turns?_cons (a : Arena size) (c : Call) (calls : List Call) :
    a.turns? (c :: calls) =
      (a.call? c).bind fun turn => (turn.after.turns? calls).bind fun later => some (turn :: later) :=
  turnsBy?_cons call? a c calls

end Arena

/-- One reader, and the number of the handles that point at it. -/
structure Shared where
  reader : Reader
  handles : Nat := 1
  deriving DecidableEq, Repr

namespace Shared

def serve (s : Shared) (q : Request) : Turn Shared Answer :=
  (s.reader.serve s.handles q).lift fun reader => ⟨reader, s.handles + q.added⟩

/-- Serve a call through a handle that exists. -/
def call? (s : Shared) (c : Call) : Option (Turn Shared Answer) :=
  if c.handle < s.handles then some (s.serve c.request) else none

def turns? (s : Shared) : List Call → Option (List (Turn Shared Answer)) := turnsBy? call? s

theorem turns?_cons (s : Shared) (c : Call) (calls : List Call) :
    s.turns? (c :: calls) =
      (s.call? c).bind fun turn => (turn.after.turns? calls).bind fun later => some (turn :: later) :=
  turnsBy?_cons call? s c calls

theorem call?_eq_some_iff {s : Shared} {c : Call} {turn : Turn Shared Answer} :
    s.call? c = some turn ↔ c.handle < s.handles ∧ turn = s.serve c.request := by
  unfold call?
  split
  · next h => simp [h, eq_comm]
  · next h => simp [h]

end Shared
end Retrace
