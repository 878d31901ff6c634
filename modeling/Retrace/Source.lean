import Retrace.Shared

/-! What those who only want characters can call, and on what: a reader, one handle of a shared
reader, or a loan of either, which passes every call on. -/
namespace Retrace

class Source (σ : Type) where
  /-- The next character, which stays unread. -/
  peek : σ → Turn σ (Option Char)
  next : σ → Turn σ (Option Char)
  position : σ → Position

instance : Source Reader := ⟨Reader.peek, Reader.next, Reader.position⟩

/-- A handle that exists, and all that it may point at. -/
structure Handle (size : Nat) where
  arena : Arena size
  number : Nat
  exists_number : number < arena.handles.length

namespace Handle

variable {size : Nat}

def cell (h : Handle size) : Fin size := h.arena.handles.get ⟨h.number, h.exists_number⟩

def reader (h : Handle size) : Reader := h.arena.reader h.cell

def moveTo (h : Handle size) (reader : Reader) : Handle size :=
  ⟨h.arena.put h.cell reader, h.number, h.exists_number⟩

instance : Source (Handle size) where
  peek h := h.reader.peek.lift h.moveTo
  next h := h.reader.next.lift h.moveTo
  position h := h.reader.position

end Handle

structure Loan (σ : Type) where
  source : σ

instance {σ : Type} [Source σ] : Source (Loan σ) where
  peek l := (Source.peek l.source).lift .mk
  next l := (Source.next l.source).lift .mk
  position l := Source.position l.source

/-- A call on a source as data. -/
inductive Query where
  | peek
  | next
  | position
  deriving DecidableEq, Repr

namespace Query

def step : Query → Step
  | peek => .peek
  | next => .next
  | position => .position

def request : Query → Request
  | peek => .peek
  | next => .next
  | position => .position

end Query

namespace Source

variable {σ : Type} [Source σ]

def query (s : σ) : Query → Turn σ Value
  | .peek => (peek s).map .char
  | .next => (next s).map .char
  | .position => ⟨.position (position s), s, []⟩

def values (s : σ) : List Query → List Value
  | [] => []
  | q :: queries => (query s q).answer :: values (query s q).after queries

@[simp] theorem length_values (s : σ) (queries : List Query) :
    (values s queries).length = queries.length := by
  induction queries generalizing s with
  | nil => rfl
  | cons q queries ih => rw [values, List.length_cons, List.length_cons, ih]

theorem query_loan (s : σ) (q : Query) {τ : Type} (giveBack : σ → τ) :
    (query (Loan.mk s) q).lift (fun l => giveBack l.source) = (query s q).lift giveBack := by
  cases q <;> rfl

theorem query_handle {size : Nat} (h : Handle size) (q : Query) :
    (query h q).lift Handle.arena = (query h.reader q).lift (h.arena.put h.cell) := by
  cases q with
  | peek | next => rfl
  | position => exact congrArg (Turn.mk _ · _) (h.arena.put_self h.cell).symm

end Source

theorem Reader.perform_step_query (r : Reader) (q : Query) :
    r.perform q.step = (Source.query r q).map .ok := by
  cases q <;> rfl

theorem Reader.replies_queries (r : Reader) (queries : List Query) :
    r.replies (queries.map Query.step) = (Source.values r queries).map .ok := by
  induction queries generalizing r with
  | nil => rfl
  | cons q queries ih =>
    have h := ih (Source.query r q).after
    rw [replies] at h ⊢
    rw [List.map_cons, turns_cons, List.map_cons, perform_step_query, Turn.answer_map,
      Turn.after_map, h]
    rfl

/-- How a call gets to a reader: directly, through a handle, or through a loan of what gets there
either way. -/
inductive Way where
  | direct
  | handle (number : Nat)
  | loan (way : Way)
  deriving DecidableEq, Repr

namespace Way

def Carrier (size : Nat) : Way → Type
  | direct => Reader
  | handle _ => Handle size
  | loan way => Loan (way.Carrier size)

instance source (size : Nat) : (way : Way) → Source (way.Carrier size)
  | direct => inferInstanceAs (Source Reader)
  | handle _ => inferInstanceAs (Source (Handle size))
  | loan way =>
    have := source size way
    inferInstanceAs (Source (Loan (way.Carrier size)))

/-- The way ends at the cell. -/
def Reaches {size : Nat} (a : Arena size) (cell : Fin size) : Way → Prop
  | direct => True
  | handle number => a.handles[number]? = some cell
  | loan way => way.Reaches a cell

end Way

namespace Arena

variable {size : Nat} {a : Arena size} {cell : Fin size} {way : Way}

/-- What a call that comes this way is made on, if the handle exists. -/
def borrow? (a : Arena size) (cell : Fin size) : (way : Way) → Option (way.Carrier size)
  | .direct => some (a.reader cell)
  | .handle number => if h : number < a.handles.length then some (Handle.mk a number h) else none
  | .loan way => (a.borrow? cell way).map Loan.mk

/-- The arena behind a call. -/
def giveBack (a : Arena size) (cell : Fin size) : (way : Way) → way.Carrier size → Arena size
  | .direct, (reader : Reader) => a.put cell reader
  | .handle _, (h : Handle size) => h.arena
  | .loan way, (l : Loan (way.Carrier size)) => a.giveBack cell way l.source

def query? (a : Arena size) (cell : Fin size) (call : Way × Query) : Option (Turn (Arena size) Value) :=
  (a.borrow? cell call.1).map fun s => (Source.query s call.2).lift (a.giveBack cell call.1)

/-- What is answered to calls that are made one after the other, each its own way. -/
def values? (a : Arena size) (cell : Fin size) (calls : List (Way × Query)) : Option (List Value) :=
  (turnsBy? (query? · cell) a calls).map (List.map (·.answer))

theorem reaches_put (h : way.Reaches a cell) (reader : Reader) :
    way.Reaches (a.put cell reader) cell := by
  induction way with
  | direct => trivial
  | handle number => exact h
  | loan way ih => exact ih h

/-- Every way to a cell calls the reader in it, and leaves the rest of the arena alone. -/
theorem exists_borrow? (h : way.Reaches a cell) :
    ∃ s, a.borrow? cell way = some s ∧ ∀ q,
      (Source.query s q).lift (a.giveBack cell way) =
        (Source.query (a.reader cell) q).lift (a.put cell) := by
  induction way with
  | direct => exact ⟨a.reader cell, rfl, fun q => rfl⟩
  | handle number =>
    obtain ⟨hn, hcell⟩ := List.getElem?_eq_some_iff.1 h
    obtain rfl : (Handle.mk a number hn).cell = cell := hcell
    exact ⟨Handle.mk a number hn, dif_pos hn, Source.query_handle (Handle.mk a number hn)⟩
  | loan way ih =>
    obtain ⟨s, hs, hquery⟩ := ih h
    exact ⟨Loan.mk s, congrArg (Option.map Loan.mk) hs,
      fun q => (Source.query_loan s q _).trans (hquery q)⟩

theorem query?_of_reaches {call : Way × Query} (h : call.1.Reaches a cell) :
    a.query? cell call = some ((Source.query (a.reader cell) call.2).lift (a.put cell)) := by
  obtain ⟨s, hs, hquery⟩ := exists_borrow? h
  rw [query?, hs, Option.map_some, hquery]

/-- Calls that get to the cell, each its own way, are calls on the reader in it. -/
theorem values?_of_reaches {calls : List (Way × Query)} (h : ∀ c ∈ calls, c.1.Reaches a cell) :
    a.values? cell calls = some (Source.values (a.reader cell) (calls.map (·.2))) := by
  induction calls generalizing a with
  | nil => rfl
  | cons c calls ih =>
    have hlater := ih (a := a.put cell (Source.query (a.reader cell) c.2).after)
      fun d hd => reaches_put (h d (List.mem_cons_of_mem _ hd)) _
    obtain ⟨turns, hturns, hanswers⟩ := Option.map_eq_some_iff.1 hlater
    rw [values?, turnsBy?_cons, query?_of_reaches (h c List.mem_cons_self), Option.bind_some,
      Turn.after_lift, hturns, Option.bind_some, Option.map_some, List.map_cons, hanswers,
      reader_put_self]
    rfl

end Arena

/-- A call on a source, and the handle it is made through. -/
structure Visit where
  handle : Nat
  query : Query
  deriving DecidableEq, Repr

def Visit.call (v : Visit) : Call := ⟨v.handle, v.query.request⟩

namespace Shared

theorem serve_visit (s : Shared) (v : Visit) :
    s.serve v.call.request =
      ((Source.query s.reader v.query).map .value).lift fun reader => { s with reader } := by
  obtain ⟨handle, q⟩ := v
  cases q <;> rfl

theorem call?_visit {s : Shared} {v : Visit} (h : v.handle < s.handles) :
    s.call? v.call =
      some (((Source.query s.reader v.query).map .value).lift fun reader => { s with reader }) :=
  call?_eq_some_iff.2 ⟨h, (s.serve_visit v).symm⟩

theorem turns?_visits {s : Shared} {visits : List Visit} (h : ∀ v ∈ visits, v.handle < s.handles) :
    ∃ turns, s.turns? (visits.map Visit.call) = some turns ∧
      turns.map (·.answer) = (Source.values s.reader (visits.map (·.query))).map .value := by
  induction visits generalizing s with
  | nil => exact ⟨[], rfl, rfl⟩
  | cons v visits ih =>
    have hv := call?_visit (h v List.mem_cons_self)
    obtain ⟨turns, hturns, hanswers⟩ :=
      ih (s := { s with reader := (Source.query s.reader v.query).after })
        fun w hw => h w (List.mem_cons_of_mem _ hw)
    refine ⟨((Source.query s.reader v.query).map .value).lift (fun reader => { s with reader }) ::
      turns, ?_, ?_⟩
    · rw [List.map_cons, turns?_cons, hv, Option.bind_some]
      simp only [Turn.after_lift, Turn.after_map]
      rw [hturns, Option.bind_some]
    · rw [List.map_cons, List.map_cons, hanswers]
      rfl

end Shared
end Retrace
