import Retrace.Proofs.Bracket
import Retrace.Proofs.Depths
import Retrace.Proofs.Drain
import Retrace.Proofs.Handles

/-! Clients of a shared reader that speculate: a block marks, reads on, goes back and forth, and goes
back in the end. Since the lock is held for the whole block, nobody else can tell that there
was one, not even where it pushed older marks off the stack. -/
namespace Retrace

/-- What a client does while it holds the lock: a single call, or a block that goes back behind
its body. -/
inductive Move where
  | visit (v : Visit)
  | speculate (handle : Nat) (limit : Int) (body : List Step)
  deriving DecidableEq, Repr

namespace Move

def bracket (limit : Int) (body : List Step) : List Step := .mark limit :: body ++ [.rewind]

def call : Move → Call
  | visit v => v.call
  | speculate handle limit body => ⟨handle, .block (bracket limit body)⟩

def visit? : Move → Option Visit
  | visit v => some v
  | speculate .. => none

/-- A block takes off all marks that its body adds, and never needs the whole stack for them. -/
def Undoes (depth : Nat) : Move → Prop
  | visit _ => True
  | speculate _ limit body =>
      0 ≤ limit ∧ Step.Nested body ∧ ∃ summit < depth, Step.Summit body summit

/-- The single calls among the moves, each with its answer. -/
def answered : List Move → List (Turn Shared Answer) → List (Visit × Answer)
  | visit v :: moves, turn :: turns => (v, turn.answer) :: answered moves turns
  | speculate .. :: moves, _ :: turns => answered moves turns
  | _, _ => []

end Move

def Answer.granted : Answer → Bool
  | replies list => list.all fun reply => !reply.isRefusal
  | _ => true

namespace Reader

theorem block_of_granted {r : Reader} {steps : List Step}
    (h : (Answer.replies (r.block steps).answer).granted = true) :
    (r.block steps).after = r.afterAll steps := by
  induction steps generalizing r with
  | nil => rfl
  | cons step steps ih =>
    unfold block at h ⊢
    cases hr : (r.perform step).answer.isRefusal with
    | true => simp [hr, Answer.granted] at h
    | false =>
      simp only [hr, Bool.false_eq_true, if_false, Answer.granted, List.all_cons, Bool.not_false,
        Bool.true_and] at h ⊢
      exact ih h

namespace Agree

variable {r s t : Reader}

theorem refl (r : Reader) : Agree r r := ⟨rfl, rfl, rfl⟩

theorem trans (h : Agree r s) (h' : Agree s t) : Agree r t :=
  ⟨h'.text.trans h.text, h'.cursor.trans h.cursor, h'.line.trans h.line⟩

theorem query (h : Agree r s) (q : Query) :
    (Source.query s q).answer = (Source.query r q).answer ∧
      Agree (Source.query r q).after (Source.query s q).after := by
  obtain ⟨hanswer, hafter⟩ := h.perform_of_not_usesMark (show q.step.usesMark = false by cases q <;> rfl)
  rw [perform_step_query, perform_step_query] at hanswer hafter
  exact ⟨Except.ok.inj (congrArg Reply.outcome hanswer), hafter⟩

end Agree

theorem values_of_asks (r : Reader) (visits : List Visit) :
    ((visits.zip ((Source.values r (visits.map (·.query))).map Answer.value)).filter
        (·.1.asks)).map (·.2) =
      (List.range (visits.countP (·.asks))).map fun i => .value (.char r.rest[i]?) := by
  induction visits generalizing r with
  | nil => rfl
  | cons v visits ih =>
    have hlater := ih (Source.query r v.query).after
    rw [List.map_cons, Source.values, List.map_cons, List.zip_cons_cons]
    obtain ⟨handle, q⟩ := v
    cases q with
    | next =>
      have hrest : (Source.query r .next).after.rest = r.rest.tail := r.rest_after_next
      have hfirst : (Source.query r .next).answer = .char r.rest[0]? := by
        rw [← List.head?_eq_getElem?, ← answer_next]
        rfl
      rw [hrest] at hlater
      rw [List.filter_cons_of_pos rfl, List.map_cons, hlater, List.countP_cons_of_pos rfl,
        List.range_succ_eq_map, List.map_cons, List.map_map, hfirst]
      congr 1
      refine List.map_congr_left fun i _ => ?_
      rw [List.getElem?_tail]
      rfl
    | peek =>
      have hsame : (Source.query r .peek).after = r := r.after_peek
      rw [hsame] at hlater
      rw [List.filter_cons_of_neg Bool.false_ne_true, List.countP_cons_of_neg Bool.false_ne_true,
        hsame, hlater]
    | position =>
      rw [List.filter_cons_of_neg Bool.false_ne_true, List.countP_cons_of_neg Bool.false_ne_true]
      exact hlater

end Reader

namespace Origin

variable {origin : Origin} {past body : List Step} {limit : Int} {summit : Nat}

/-- A mark, a body that leaves it on the stack, and the way back are as if nothing had been. -/
theorem agree_bracket (ho : (origin.reader past).isClosed = false) (hl : 0 ≤ limit)
    (hbody : Step.Nested body) (hs : Step.Summit body summit) (hd : summit < origin.depth) :
    Reader.Agree (origin.reader past) (origin.reader (past ++ Move.bracket limit body)) := by
  obtain ⟨text, ht⟩ := Reader.exists_text_of_open ho
  obtain ⟨htext, hline⟩ := origin.text_and_line_bracket past limit hbody.inside
  have hheld := origin.held_bracket ht hl hbody hs
  rw [if_neg (Nat.not_le.2 hd)] at hheld
  have htarget : (origin.reader (past ++ .mark limit :: body)).marks.target? =
      some (origin.reader past).cursor := by
    rw [Marks.target?, Marks.newest_of_held_cons hheld]
  have hback : origin.reader (past ++ Move.bracket limit body) =
      (origin.reader (past ++ .mark limit :: body)).rewind.after := by
    rw [Move.bracket, ← List.append_assoc, reader_append]
    rfl
  rw [hback, Reader.after_rewind_of_open (htext.trans ht), htarget]
  exact ⟨htext, rfl, hline⟩

end Origin

namespace Shared

variable {s : Shared} {c : Call} {calls : List Call} {turns : List (Turn Shared Answer)}

theorem turns?_cons_eq_some_iff :
    s.turns? (c :: calls) = some turns ↔
      c.handle < s.handles ∧ ∃ later, (s.serve c.request).after.turns? calls = some later ∧
        s.serve c.request :: later = turns := by
  rw [turns?_cons, call?]
  by_cases h : c.handle < s.handles
  · simp [h, Option.bind_eq_some_iff]
  · simp [h]

theorem exists_turns (h : ∀ c ∈ calls, c.handle < s.handles) : ∃ turns, s.turns? calls = some turns :=
  ⟨_, turns?_of_handlesExist (Call.handlesExist_of_lt h)⟩

end Shared

namespace Move

/-- Every block leaves the text, the cursor and the line as it found them. -/
def LeaveNoTrace (s : Shared) : List Move → List (Turn Shared Answer) → Prop
  | speculate .. :: moves, turn :: turns =>
      Reader.Agree s.reader turn.after.reader ∧ LeaveNoTrace turn.after moves turns
  | visit _ :: moves, turn :: turns => LeaveNoTrace turn.after moves turns
  | _, _ => True

variable {origin : Origin} {past : List Step} {s : Shared} {r : Reader}

theorem reader_after_visit (hs : s.reader = origin.reader past) (ho : s.reader.isClosed = false)
    (v : Visit) :
    (s.serve v.call.request).after.reader = origin.reader (past ++ [v.query.step]) ∧
      (s.serve v.call.request).after.reader.isClosed = false := by
  have hafter : (s.serve v.call.request).after.reader = (s.reader.perform v.query.step).after := by
    rw [s.serve_visit, Reader.perform_step_query]
    rfl
  constructor
  · rw [hafter, hs, origin.reader_append]
    rfl
  · rw [hafter, Reader.isClosed_perform, ho]
    cases v.query <;> rfl

theorem reader_after_block (hs : s.reader = origin.reader past) (ho : s.reader.isClosed = false)
    {handle : Nat} {limit : Int} {body : List Step}
    (hu : (speculate handle limit body).Undoes origin.depth)
    (hg : (s.serve (.block (bracket limit body))).answer.granted = true) :
    (s.serve (.block (bracket limit body))).after.reader =
        origin.reader (past ++ bracket limit body) ∧
      Reader.Agree s.reader (s.serve (.block (bracket limit body))).after.reader := by
  obtain ⟨hl, hbody, summit, hd, hsummit⟩ := hu
  have hafter : (s.serve (.block (bracket limit body))).after.reader =
      s.reader.afterAll (bracket limit body) := Reader.block_of_granted hg
  have hreader : (s.serve (.block (bracket limit body))).after.reader =
      origin.reader (past ++ bracket limit body) := by
    rw [hafter, hs, origin.reader_append]
  refine ⟨hreader, ?_⟩
  rw [hreader, hs]
  exact Origin.agree_bracket (hs ▸ ho) hl hbody hsummit hd

/-- The reader that blocks are deleted from goes through the single calls as the other one does. -/
theorem answered_eq (hs : s.reader = origin.reader past) (ho : s.reader.isClosed = false)
    (hr : Reader.Agree r s.reader) {moves : List Move} (hm : ∀ m ∈ moves, m.Undoes origin.depth)
    {turns : List (Turn Shared Answer)} (hturns : s.turns? (moves.map call) = some turns)
    (hg : ∀ turn ∈ turns, turn.answer.granted = true) :
    LeaveNoTrace s moves turns ∧
      answered moves turns = (moves.filterMap visit?).zip
        ((Source.values r ((moves.filterMap visit?).map (·.query))).map Answer.value) := by
  -- the two readers may differ in their marks, and only the one with the blocks has a history
  induction moves generalizing s r past turns with
  | nil => exact ⟨by cases turns <;> trivial, by cases turns <;> rfl⟩
  | cons m moves ih =>
    obtain ⟨-, later, hlater, rfl⟩ := Shared.turns?_cons_eq_some_iff.1 hturns
    have hmoves : ∀ m ∈ moves, m.Undoes origin.depth := fun m hm' => hm m (List.mem_cons_of_mem _ hm')
    have hfirst := hg _ List.mem_cons_self
    have hgranted : ∀ turn ∈ later, turn.answer.granted = true :=
      fun turn ht => hg turn (List.mem_cons_of_mem _ ht)
    cases m with
    | visit v =>
      obtain ⟨hanswer, hagree⟩ := hr.query v.query
      obtain ⟨hreader, hopen⟩ := reader_after_visit hs ho v
      have hserve := s.serve_visit v
      have hsame : Reader.Agree (Source.query r v.query).after (s.serve v.call.request).after.reader := by
        rw [hserve]
        exact hagree
      obtain ⟨htrace, hanswered⟩ := ih hreader hopen hsame hmoves hlater hgranted
      refine ⟨htrace, ?_⟩
      have hvalue : (s.serve v.call.request).answer = .value (Source.query r v.query).answer := by
        rw [hserve, ← hanswer]
        rfl
      change (v, (s.serve v.call.request).answer) :: answered moves later = _
      rw [hvalue, hanswered]
      rfl
    | speculate handle limit body =>
      obtain ⟨hreader, hback⟩ := reader_after_block hs ho (hm _ List.mem_cons_self) hfirst
      have hopen : (s.serve (.block (bracket limit body))).after.reader.isClosed = false :=
        hback.isClosed.trans ho
      obtain ⟨htrace, hanswered⟩ := ih hreader hopen (hr.trans hback) hmoves hlater hgranted
      exact ⟨⟨hback, htrace⟩, hanswered⟩

theorem call_visits (moves : List Move) :
    ∀ c ∈ (moves.filterMap visit?).map Visit.call, c ∈ moves.map call := by
  intro c hc
  obtain ⟨v, hv, rfl⟩ := List.mem_map.1 hc
  obtain ⟨m, hm, hmv⟩ := List.mem_filterMap.1 hv
  cases m with
  | visit w =>
    cases hmv
    exact List.mem_map.2 ⟨_, hm, rfl⟩
  | speculate => cases hmv

end Move

/-- In whatever order the lock is taken, blocks that go back in the end can be deleted from a history of
calls, and no other call is answered differently. -/
theorem Shared.blocks_leave_no_trace (origin : Origin) (past : List Step)
    (ho : (origin.reader past).isClosed = false) (s : Shared) (hs : s.reader = origin.reader past)
    (moves : List Move) (hh : ∀ m ∈ moves, m.call.handle < s.handles)
    (hm : ∀ m ∈ moves, m.Undoes origin.depth) :
    ∃ turns bare, s.turns? (moves.map Move.call) = some turns ∧
      s.turns? ((moves.filterMap Move.visit?).map Visit.call) = some bare ∧
      ((∀ turn ∈ turns, turn.answer.granted = true) →
        Move.LeaveNoTrace s moves turns ∧
        (Move.answered moves turns).map (·.1) = moves.filterMap Move.visit? ∧
        (Move.answered moves turns).map (·.2) = bare.map (·.answer) ∧
        ((Move.answered moves turns).filter (·.1.asks)).map (·.2) =
          (List.range ((moves.filterMap Move.visit?).countP (·.asks))).map
            fun i => .value (.char s.reader.rest[i]?)) := by
  have hcalls : ∀ c ∈ moves.map Move.call, c.handle < s.handles := by
    intro c hc
    obtain ⟨m, hm, rfl⟩ := List.mem_map.1 hc
    exact hh m hm
  obtain ⟨turns, hturns⟩ := exists_turns hcalls
  have hvisits : ∀ v ∈ moves.filterMap Move.visit?, v.handle < s.handles :=
    fun v hv => hcalls _ (Move.call_visits moves _ (List.mem_map_of_mem hv))
  obtain ⟨bare, hbare, hanswers⟩ := turns?_visits hvisits
  refine ⟨turns, bare, hturns, hbare, fun hg => ?_⟩
  obtain ⟨htrace, hanswered⟩ := Move.answered_eq hs (hs ▸ ho) (.refl s.reader) hm hturns hg
  have hlength : ((Source.values s.reader ((moves.filterMap Move.visit?).map (·.query))).map
      Answer.value).length = (moves.filterMap Move.visit?).length := by simp
  rw [hanswered, List.map_fst_zip hlength.ge, List.map_snd_zip hlength.le, hanswers]
  exact ⟨htrace, rfl, rfl, s.reader.values_of_asks _⟩

/-- A block with a mark of its own, on a stack of depth two that is full: it loses both older marks,
and the other client does not see it. -/
theorem block_on_full_stack_leaves_no_trace :
    ((Origin.tuned { markDepth := 2 }).reader
      [.load ['a', 'b', 'c', 'd'], .mark 0, .mark 0, .read]).isClosed = false ∧
    (∀ m ∈ [Move.visit ⟨0, .next⟩, .speculate 1 0 [.read, .mark 0, .skip 1, .release], .visit ⟨0, .peek⟩,
      .visit ⟨1, .next⟩], m.call.handle < 2 ∧ m.Undoes 2) ∧
    ∃ turns, Shared.turns? (.mk ((Origin.tuned { markDepth := 2 }).reader
          [.load ['a', 'b', 'c', 'd'], .mark 0, .mark 0, .read]) 2)
        [⟨0, .next⟩, ⟨1, .block [.mark 0, .read, .mark 0, .skip 1, .release, .rewind]⟩, ⟨0, .peek⟩,
          ⟨1, .next⟩] = some turns ∧
      (∀ turn ∈ turns, turn.answer.granted = true) ∧
      Move.LeaveNoTrace (.mk ((Origin.tuned { markDepth := 2 }).reader
          [.load ['a', 'b', 'c', 'd'], .mark 0, .mark 0, .read]) 2)
        [.visit ⟨0, .next⟩, .speculate 1 0 [.read, .mark 0, .skip 1, .release], .visit ⟨0, .peek⟩,
          .visit ⟨1, .next⟩] turns ∧
      ((Move.answered [.visit ⟨0, .next⟩, .speculate 1 0 [.read, .mark 0, .skip 1, .release],
          .visit ⟨0, .peek⟩, .visit ⟨1, .next⟩] turns).filter (·.1.asks)).map (·.2) =
        [.value (.char (some 'b')), .value (.char (some 'c'))] := by
  have hbody : Step.Nested [.read, .mark 0, .skip 1, .release] := by
    refine ⟨by decide, fun part hp => ?_, by decide⟩
    have hall : ∀ part ∈ List.inits [Step.read, .mark 0, .skip 1, .release],
        Step.taken part ≤ Step.added part := by decide
    exact hall part ((List.mem_inits _ _).2 hp)
  have hsummit : Step.Summit [.read, .mark 0, .skip 1, .release] 1 := by
    refine ⟨fun part hp => ?_, [.read, .mark 0], ⟨[.skip 1, .release], rfl⟩, by decide⟩
    have hall : ∀ part ∈ List.inits [Step.read, .mark 0, .skip 1, .release],
        Step.added part ≤ Step.taken part + 1 := by decide
    exact hall part ((List.mem_inits _ _).2 hp)
  have hm : ∀ m ∈ [Move.visit ⟨0, .next⟩, .speculate 1 0 [.read, .mark 0, .skip 1, .release],
      .visit ⟨0, .peek⟩, .visit ⟨1, .next⟩], m.call.handle < 2 ∧ m.Undoes 2 := by
    simp only [List.forall_mem_cons]
    exact ⟨⟨by decide, trivial⟩, ⟨by decide, by decide, hbody, 1, by decide, hsummit⟩,
      ⟨by decide, trivial⟩, ⟨by decide, trivial⟩, by simp⟩
  have ho : ((Origin.tuned { markDepth := 2 }).reader
    [.load ['a', 'b', 'c', 'd'], .mark 0, .mark 0, .read]).isClosed = false := rfl
  obtain ⟨turns, bare, hturns, -, hall⟩ := Shared.blocks_leave_no_trace
    (.tuned { markDepth := 2 }) [.load ['a', 'b', 'c', 'd'], .mark 0, .mark 0, .read] ho
    (.mk _ 2) rfl _ (fun m h => (hm m h).1) (fun m h => (hm m h).2)
  have hg : ∀ turn ∈ turns, turn.answer.granted = true := by
    obtain rfl := Option.some.inj hturns
    decide
  obtain ⟨htrace, -, -, hreads⟩ := hall hg
  exact ⟨ho, hm, turns, hturns, hg, htrace, hreads⟩

end Retrace
