import Retrace.Shared

/-! A history of calls through handles is one history of the reader behind them: a new handle is no
call on the reader at all, and a block is the calls up to the first that is refused, with nothing
taken back. Which handles the calls are made through does not matter. -/
namespace Retrace

def Answer.given : Answer → List Reply
  | .handle _ => []
  | .value v => [.ok v]
  | .replies list => list

def Answer.handle? : Answer → Option Nat
  | .handle number => some number
  | _ => none

/-- A turn at a shared reader, as the reader sees it. -/
def Turn.atReader (turn : Turn Shared Answer) : Turn Reader (List Reply) :=
  ⟨turn.answer.given, turn.after.reader, turn.log⟩

namespace Reader

/-- The calls up to the first that is refused, that one included. -/
def cut (r : Reader) (steps : List Step) : List Step :=
  steps.take ((r.replies steps).findIdx Reply.isRefusal + 1)

/-- The calls on the reader that a request stands for. -/
def plain (r : Reader) : Request → List Step
  | .clone => []
  | .peek => [.peek]
  | .next => [.next]
  | .position => [.position]
  | .drain => [.drain]
  | .block steps => r.cut steps

def plainAll (r : Reader) : List Request → List (List Step)
  | [] => []
  | q :: requests => r.plain q :: (r.afterAll (r.plain q)).plainAll requests

def stretch (r : Reader) (steps : List Step) : Turn Reader (List Reply) :=
  ⟨r.replies steps, r.afterAll steps, r.logAll steps⟩

theorem cut_cons (r : Reader) (step : Step) (steps : List Step) :
    r.cut (step :: steps) =
      step :: if (r.perform step).answer.isRefusal then [] else (r.perform step).after.cut steps := by
  rw [cut, replies_cons, List.findIdx_cons, List.take_succ_cons]
  cases (r.perform step).answer.isRefusal <;> rfl

theorem block_eq_stretch_cut (r : Reader) (steps : List Step) :
    r.block steps = r.stretch (r.cut steps) := by
  induction steps generalizing r with
  | nil => rfl
  | cons step steps ih =>
    rw [block, cut_cons]
    cases h : (r.perform step).answer.isRefusal with
    | true => simp [stretch, replies, logAll, Turn.map]
    | false => simp [stretch, ih]

end Reader

/-- Every call is made through a handle that exists by then. -/
def Call.HandlesExist (handles : Nat) : List Call → Prop
  | [] => True
  | c :: calls =>
      c.handle < handles ∧ HandlesExist (if c.request = .clone then handles + 1 else handles) calls

instance Call.decidableHandlesExist (handles : Nat) :
    (calls : List Call) → Decidable (HandlesExist handles calls)
  | [] => .isTrue trivial
  | c :: calls =>
    have := decidableHandlesExist (if c.request = .clone then handles + 1 else handles) calls
    inferInstanceAs (Decidable (_ ∧ _))

theorem Call.handlesExist_of_lt {handles : Nat} {calls : List Call}
    (h : ∀ c ∈ calls, c.handle < handles) : HandlesExist handles calls := by
  induction calls generalizing handles with
  | nil => trivial
  | cons c calls ih =>
    refine ⟨h c List.mem_cons_self, ih fun d hd => ?_⟩
    have hlt := h d (List.mem_cons_of_mem _ hd)
    split <;> omega

namespace Shared

/-- The turns of requests, through whatever handles they are made. -/
def serveAll (s : Shared) : List Request → List (Turn Shared Answer)
  | [] => []
  | q :: requests => s.serve q :: (s.serve q).after.serveAll requests

theorem handles_serve (s : Shared) (q : Request) :
    (s.serve q).after.handles = if q = .clone then s.handles + 1 else s.handles := by
  cases q <;> rfl

theorem atReader_serve (s : Shared) (q : Request) :
    (s.serve q).atReader = s.reader.stretch (s.reader.plain q) := by
  cases q with
  | clone | position => rfl
  | peek | next | drain =>
    simp [serve, Reader.serve, Turn.atReader, Answer.given, Reader.plain, Reader.stretch, Reader.replies,
      Reader.logAll, Reader.perform]
  | block steps =>
    simp [serve, Reader.serve, Turn.atReader, Answer.given, Reader.plain, Reader.block_eq_stretch_cut]

/-- Every request is served where the calls that the earlier ones stand for have led. -/
theorem atReader_serveAll (s : Shared) (requests : List Request) (i : Nat) :
    (s.serveAll requests)[i]?.map Turn.atReader =
      (s.reader.plainAll requests)[i]?.map
        (s.reader.afterAll ((s.reader.plainAll requests).take i).flatten).stretch := by
  induction requests generalizing s i with
  | nil => rfl
  | cons q requests ih =>
    have hfirst := s.atReader_serve q
    have hafter : (s.serve q).after.reader = s.reader.afterAll (s.reader.plain q) :=
      congrArg Turn.after hfirst
    cases i with
    | zero => exact congrArg some hfirst
    | succ i =>
      rw [serveAll, Reader.plainAll, List.getElem?_cons_succ, List.getElem?_cons_succ, ih, hafter,
        List.take_succ_cons, List.flatten_cons, Reader.afterAll_append]

theorem given_and_log_serveAll (s : Shared) (requests : List Request) :
    (s.serveAll requests).flatMap (·.answer.given) =
        s.reader.replies (s.reader.plainAll requests).flatten ∧
      (s.serveAll requests).flatMap (·.log) =
        s.reader.logAll (s.reader.plainAll requests).flatten := by
  induction requests generalizing s with
  | nil => exact ⟨rfl, rfl⟩
  | cons q requests ih =>
    have hfirst := s.atReader_serve q
    have hgiven : (s.serve q).answer.given = s.reader.replies (s.reader.plain q) :=
      congrArg Turn.answer hfirst
    have hafter : (s.serve q).after.reader = s.reader.afterAll (s.reader.plain q) :=
      congrArg Turn.after hfirst
    have hlog : (s.serve q).log = s.reader.logAll (s.reader.plain q) := congrArg Turn.log hfirst
    obtain ⟨hreplies, hlogs⟩ := ih (s.serve q).after
    rw [serveAll, Reader.plainAll, List.flatMap_cons, List.flatMap_cons, List.flatten_cons,
      Reader.replies_append, Reader.logAll_append, hreplies, hlogs, hgiven, hlog, hafter]
    exact ⟨rfl, rfl⟩

theorem handle?_serveAll (s : Shared) (requests : List Request) :
    (s.serveAll requests).filterMap (·.answer.handle?) =
      List.range' s.handles (requests.count .clone) := by
  induction requests generalizing s with
  | nil => rfl
  | cons q requests ih =>
    rw [serveAll, List.filterMap_cons, ih, handles_serve]
    cases q with
    | clone =>
      rw [if_pos rfl, List.count_cons_self, List.range'_succ]
      rfl
    | _ =>
      rw [if_neg (by simp), List.count_cons_of_ne (by simp)]
      rfl

theorem length_serveAll (s : Shared) (requests : List Request) :
    (s.serveAll requests).length = requests.length := by
  induction requests generalizing s with
  | nil => rfl
  | cons q requests ih => rw [serveAll, List.length_cons, List.length_cons, ih]

theorem turns?_of_handlesExist {s : Shared} {calls : List Call}
    (h : Call.HandlesExist s.handles calls) :
    s.turns? calls = some (s.serveAll (calls.map (·.request))) := by
  induction calls generalizing s with
  | nil => rfl
  | cons c calls ih =>
    have hlater := ih (s := (s.serve c.request).after) (by rw [handles_serve]; exact h.2)
    rw [turns?_cons, call?, if_pos h.1, Option.bind_some, hlater]
    rfl

end Shared

namespace Arena

variable {size : Nat} {a : Arena size} {cell : Fin size}

def view (a : Arena size) (cell : Fin size) : Shared := ⟨a.reader cell, a.handles.length⟩

def AllAt (a : Arena size) (cell : Fin size) : Prop := ∀ other ∈ a.handles, other = cell

theorem view_serve (a : Arena size) (cell : Fin size) (q : Request) :
    (a.serve cell q).lift (·.view cell) = (a.view cell).serve q := by
  have hview (reader : Reader) :
      ((a.put cell reader).point cell q.added).view cell = ⟨reader, a.handles.length + q.added⟩ := by
    rw [view, reader_point, reader_put_self, point, List.length_append, List.length_replicate]
    rfl
  exact congrArg (fun f => ((a.reader cell).serve a.handles.length q).lift f) (funext hview)

theorem AllAt.serve (h : a.AllAt cell) (q : Request) : (a.serve cell q).after.AllAt cell := by
  intro other ho
  obtain ho | ho := List.mem_append.1 ho
  · exact h other ho
  · exact List.eq_of_mem_replicate ho

theorem AllAt.call? (h : a.AllAt cell) (c : Call) :
    a.call? c = if c.handle < a.handles.length then some (a.serve cell c.request) else none := by
  split
  · next hc =>
    have hcell : a.handles[c.handle] = cell := h _ (List.getElem_mem hc)
    rw [Arena.call?, List.getElem?_eq_getElem hc, hcell, Option.map_some]
  · next hc => rw [Arena.call?, List.getElem?_eq_none (Nat.le_of_not_lt hc), Option.map_none]

/-- Handles that all point at one cell are handles of the one reader in it. -/
theorem AllAt.turns?_view (h : a.AllAt cell) (calls : List Call) :
    (a.turns? calls).map (List.map (·.lift (·.view cell))) = (a.view cell).turns? calls := by
  induction calls generalizing a with
  | nil => rfl
  | cons c calls ih =>
    rw [turns?_cons, Shared.turns?_cons, h.call?, Shared.call?]
    change _ = (if c.handle < a.handles.length then _ else none : Option (Turn Shared Answer)).bind _
    split
    · have hlater := ih (h.serve c.request)
      have hfirst := a.view_serve cell c.request
      have hafter : (a.serve cell c.request).after.view cell = ((a.view cell).serve c.request).after :=
        congrArg Turn.after hfirst
      rw [Option.bind_some, Option.bind_some, ← hafter, ← hlater, ← hfirst]
      cases (a.serve cell c.request).after.turns? calls <;> rfl
    · rfl

/-- Nothing happens in the other cells. -/
theorem AllAt.reader_of_ne (h : a.AllAt cell) {calls : List Call}
    {turns : List (Turn (Arena size) Answer)} (ht : a.turns? calls = some turns) {other : Fin size} (ho : other ≠ cell) :
    ∀ turn ∈ turns, turn.after.reader other = a.reader other := by
  induction calls generalizing a turns with
  | nil =>
    cases ht
    simp
  | cons c calls ih =>
    rw [turns?_cons, h.call?] at ht
    split at ht
    · rw [Option.bind_some] at ht
      obtain ⟨later, hlater, hturns⟩ := Option.bind_eq_some_iff.1 ht
      obtain rfl := Option.some.inj hturns
      have hfirst : (a.serve cell c.request).after.reader other = a.reader other :=
        a.reader_put_of_ne ho _
      intro turn hturn
      obtain rfl | hturn := List.mem_cons.1 hturn
      · exact hfirst
      · exact (ih (h.serve c.request) hlater turn hturn).trans hfirst
    · cases ht

end Arena

/-- Calls through handles that exist are all served, and each of them as the plain calls on the reader
that it stands for; through which handles they are made changes nothing. The same goes for an arena
all of whose handles point at the cell of that reader. -/
theorem Shared.history_is_one_of_its_reader (s : Shared) (calls : List Call)
    (hc : Call.HandlesExist s.handles calls) :
    let plain := s.reader.plainAll (calls.map (·.request))
    ∃ turns, s.turns? calls = some turns ∧ turns.length = calls.length ∧
      (∀ i, turns[i]?.map Turn.atReader =
        plain[i]?.map (s.reader.afterAll (plain.take i).flatten).stretch) ∧
      (turns.flatMap (·.answer.given) = s.reader.replies plain.flatten ∧
        turns.flatMap (·.log) = s.reader.logAll plain.flatten) ∧
      turns.filterMap (·.answer.handle?) =
        List.range' s.handles ((calls.map (·.request)).count .clone) ∧
      (∀ others, others.map (·.request) = calls.map (·.request) →
        Call.HandlesExist s.handles others → s.turns? others = some turns) ∧
      ∀ {size : Nat} (a : Arena size) (cell : Fin size), a.AllAt cell → a.view cell = s →
        ∃ served, a.turns? calls = some served ∧ served.map (·.lift (·.view cell)) = turns ∧
          ∀ turn ∈ served, ∀ other ≠ cell, turn.after.reader other = a.reader other := by
  intro plain
  have hserved := turns?_of_handlesExist hc
  refine ⟨s.serveAll (calls.map (·.request)), hserved, ?_, ?_, s.given_and_log_serveAll _,
    s.handle?_serveAll _, ?_, ?_⟩
  · rw [length_serveAll, List.length_map]
  · exact s.atReader_serveAll _
  · intro others hrequests hothers
    rw [turns?_of_handlesExist hothers, hrequests]
  · rintro size a cell hall rfl
    obtain ⟨served, ha, hview⟩ := Option.map_eq_some_iff.1 ((hall.turns?_view calls).trans hserved)
    exact ⟨served, ha, hview, fun turn ht other ho => hall.reader_of_ne ha ho turn ht⟩

/-- A block that is cut at a step back that goes too far, in between calls through two handles; then
the same with the handles changed, and with the handles as pointers to the one cell. -/
theorem block_cut_between_two_handles :
    Call.HandlesExist 1 [⟨0, .clone⟩, ⟨1, .next⟩,
      ⟨0, .block [.mark 0, .skip 1, .unread 9, .close]⟩, ⟨1, .position⟩] ∧
    Call.HandlesExist 1 [⟨0, .clone⟩, ⟨0, .next⟩,
      ⟨1, .block [.mark 0, .skip 1, .unread 9, .close]⟩, ⟨0, .position⟩] ∧
    ∃ turns, Shared.turns? { reader := (Origin.text ['a', 'b', 'c']).build.after } [⟨0, .clone⟩,
          ⟨1, .next⟩, ⟨0, .block [.mark 0, .skip 1, .unread 9, .close]⟩, ⟨1, .position⟩] =
        some turns ∧
      turns.flatMap (·.answer.given) = (Origin.text ['a', 'b', 'c']).build.after.replies
        [.next, .mark 0, .skip 1, .unread 9, .position] ∧
      turns.filterMap (·.answer.handle?) = [1] ∧
      Shared.turns? { reader := (Origin.text ['a', 'b', 'c']).build.after } [⟨0, .clone⟩,
          ⟨0, .next⟩, ⟨1, .block [.mark 0, .skip 1, .unread 9, .close]⟩, ⟨0, .position⟩] =
        some turns ∧
      ∃ served, (Arena.share (Origin.text ['a', 'b', 'c']).build.after).turns? [⟨0, .clone⟩,
          ⟨1, .next⟩, ⟨0, .block [.mark 0, .skip 1, .unread 9, .close]⟩, ⟨1, .position⟩] =
        some served ∧ served.map (·.lift (·.view 0)) = turns := by
  have hc : Call.HandlesExist 1 [⟨0, .clone⟩, ⟨1, .next⟩,
      ⟨0, .block [.mark 0, .skip 1, .unread 9, .close]⟩, ⟨1, .position⟩] := by decide
  have hothers : Call.HandlesExist 1 [⟨0, .clone⟩, ⟨0, .next⟩,
      ⟨1, .block [.mark 0, .skip 1, .unread 9, .close]⟩, ⟨0, .position⟩] := by decide
  obtain ⟨turns, hturns, -, -, ⟨hgiven, -⟩, hnumbers, hsame, hpointers⟩ :=
    Shared.history_is_one_of_its_reader { reader := (Origin.text ['a', 'b', 'c']).build.after } _ hc
  obtain ⟨served, hserved, hview, -⟩ :=
    hpointers (Arena.share (Origin.text ['a', 'b', 'c']).build.after) 0
      (fun other _ => Subsingleton.elim other 0) rfl
  exact ⟨hc, hothers, turns, hturns, hgiven, hnumbers, hsame _ rfl hothers, served, hserved, hview⟩

end Retrace
