import Retrace.Reader.Lenient

/-! Clients that drain one reader together. Each asks for one character at a time until it is
told that there is none; the order in which they get the lock is a schedule. -/
namespace Retrace

/-- What a client received so far, and whether it has been told of the end. -/
structure Client where
  received : List Char := []
  done : Bool := false
  deriving DecidableEq, Repr

namespace Client

def take (c : Client) : Option Char → Client
  | some char => { c with received := c.received ++ [char] }
  | none => { c with done := true }

end Client

structure Crew where
  reader : Reader
  clients : List Client
  deriving DecidableEq, Repr

namespace Crew

def gather (reader : Reader) (size : Nat) : Crew := ⟨reader, List.replicate size {}⟩

/-- A client asks for a character, unless it knows of the end. -/
def ask (crew : Crew) (i : Nat) : Turn Crew (Option Char) :=
  match crew.clients[i]? with
  | none => ⟨none, crew, []⟩
  | some client =>
    if client.done then ⟨none, crew, []⟩
    else
      let turn := crew.reader.next
      turn.lift fun reader => ⟨reader, crew.clients.set i (client.take turn.answer)⟩

def run (crew : Crew) (schedule : List Nat) : Crew :=
  schedule.foldl (fun crew i => (crew.ask i).after) crew

/-- Every client in turn, as often as there are characters left and once more. -/
def rounds (crew : Crew) : List Nat :=
  (List.replicate (crew.reader.rest.length + 1) (List.range crew.clients.length)).flatten

def received (crew : Crew) : List Char := crew.clients.flatMap (·.received)

def receivedSorted (crew : Crew) : List Char := crew.received.mergeSort (· ≤ ·)

@[simp] theorem run_cons (crew : Crew) (i : Nat) (schedule : List Nat) :
    crew.run (i :: schedule) = (crew.ask i).after.run schedule := rfl

theorem run_append (crew : Crew) (xs ys : List Nat) :
    crew.run (xs ++ ys) = (crew.run xs).run ys := by
  simp [run]

end Crew
end Retrace
