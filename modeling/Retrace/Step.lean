import Retrace.Lexical
import Retrace.Reader.Backtracking
import Retrace.Reader.Lenient

/-! The calls on a reader as data, and what is replied to each. -/
namespace Retrace

inductive Step where
  | load (text : List Char)
  | clear
  | close
  | ready
  | read
  | look
  | readInto (dest : List Char) (offset max : Nat)
  | skip (distance : Int)
  | remainder
  | snapshot
  | unread (count : Nat)
  | unreadOne
  | canMark
  | mark (limit : Int)
  | reset
  | rewind
  | release
  | setLine (line : Nat)
  | position
  | peek
  | next
  | peekCode
  | nextCode
  | drain
  deriving DecidableEq, Repr

inductive Value where
  | unit
  | flag (b : Bool)
  | char (c : Option Char)
  | count (n : Option Nat)
  | moved (distance : Int)
  | text (cs : List Char)
  | position (p : Position)
  | code (n : Int)
  deriving DecidableEq, Repr

/-- The outcome of a call and, where the call had one, the destination after it. -/
structure Reply where
  outcome : Except Fault Value
  dest : Option (List Char) := none

namespace Reply

def ok (v : Value) : Reply := { outcome := .ok v }

def ofExcept {α : Type} (f : α → Value) (e : Except Fault α) : Reply := { outcome := e.map f }

def isRefusal (reply : Reply) : Bool :=
  match reply.outcome with
  | .ok _ => false
  | .error _ => true

end Reply

namespace Reader

/-- A reply that changes nothing and logs nothing. -/
def tell (r : Reader) (reply : Reply) : Turn Reader Reply := ⟨reply, r, []⟩

def perform (r : Reader) : Step → Turn Reader Reply
  | .load text => (r.load text).map (.ofExcept fun _ => .unit)
  | .clear => r.clear.map (.ofExcept fun _ => .unit)
  | .close => r.close.map fun _ => .ok .unit
  | .ready => r.tell (.ofExcept .flag r.ready)
  | .read => r.read.map (.ofExcept .char)
  | .look => r.tell (.ofExcept .char r.look)
  | .readInto dest offset max =>
      (r.readInto dest offset max).map fun answer =>
        { outcome := answer.1.map .count, dest := some answer.2 }
  | .skip distance => (r.skip distance).map (.ofExcept .moved)
  | .remainder => r.tell (.ofExcept .text r.remainder)
  | .snapshot => r.tell (.ofExcept .text r.snapshot)
  | .unread count => (r.unread count).map (.ofExcept fun _ => .unit)
  | .unreadOne => r.unreadOne.map (.ofExcept fun _ => .unit)
  | .canMark => r.tell (.ok (.flag r.canMark))
  | .mark limit => (r.mark limit).map (.ofExcept fun _ => .unit)
  | .reset => r.reset.map (.ofExcept fun _ => .unit)
  | .rewind => r.rewind.map (.ofExcept fun _ => .unit)
  | .release => r.release.map (.ofExcept .count)
  | .setLine line => ⟨.ok .unit, r.setLine line, []⟩
  | .position => r.tell (.ok (.position r.position))
  | .peek => r.peek.map fun c => .ok (.char c)
  | .next => r.next.map fun c => .ok (.char c)
  | .peekCode => r.peek.map fun c => .ok (.code (Lexical.charCode c))
  | .nextCode => r.next.map fun c => .ok (.code (Lexical.charCode c))
  | .drain => r.drain.map fun cs => .ok (.text cs)

end Reader
end Retrace
