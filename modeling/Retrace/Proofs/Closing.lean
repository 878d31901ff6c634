import Retrace.Proofs.Refusal
import Retrace.Proofs.Trail
import Mathlib.Data.List.Basic

/-! The end of a reader. Once it is closed, no call opens it again, every call that needs the text
is refused, and all but the line stays as it is. The log tells the end once, with the cursor that stays, and
after it nothing but the refusals that lenient calls hid, one record for each. -/
namespace Retrace
namespace Event

/-- What an open reader logs as long as it stays open. -/
def ofOpen : Event → Bool
  | closed _ | peekHid _ | nextHid _ => false
  | _ => true

/-- The messages of the end and of what is hidden. -/
def endMessages : List String := ["stream closed", "peek reported as EOF", "getch reported as EOF"]

theorem message_notMem_of_ofOpen {e : Event} (h : e.ofOpen = true) : e.message ∉ endMessages := by
  cases e with
  | closed | peekHid | nextHid => cases h
  | _ => simp [endMessages, message]

end Event

namespace Step

/-- What a call logs on a closed reader: the refusal that it hid. -/
def hidden : Step → List Event
  | .peek | .peekCode => [.peekHid .closed]
  | .next | .nextCode | .drain => [.nextHid .closed]
  | _ => []

def line? : Step → Option Nat
  | .setLine line => some line
  | _ => none

/-- The line that was set last. -/
def lastLine (line : Nat) (steps : List Step) : Nat := (steps.filterMap line?).getLast?.getD line

theorem lastLine_cons (line : Nat) (step : Step) (steps : List Step) :
    lastLine line (step :: steps) = lastLine (step.line?.getD line) steps := by
  cases h : step.line? with
  | none => simp [lastLine, h]
  | some set => simp [lastLine, h, List.getLast?_cons]

def hiddenRecord? : Step → Option Event.Record
  | .peek | .peekCode => some ⟨.debug, "peek reported as EOF", [("err", .text "stream closed")]⟩
  | .next | .nextCode | .drain => some ⟨.debug, "getch reported as EOF", [("err", .text "stream closed")]⟩
  | _ => none

theorem map_record_hidden (step : Step) : step.hidden.map Event.record = step.hiddenRecord?.toList := by
  cases step <;> rfl

theorem map_record_flatMap_hidden (steps : List Step) :
    (steps.flatMap hidden).map Event.record = steps.filterMap hiddenRecord? := by
  rw [List.map_flatMap, List.filterMap_eq_flatMap_toList]
  simp only [map_record_hidden]

theorem message_ne_of_hiddenRecord? {step : Step} {r : Event.Record} (h : step.hiddenRecord? = some r) :
    r.message ≠ "stream closed" := by
  cases step with
  | peek | peekCode | next | nextCode | drain =>
    cases h
    simp
  | _ => cases h

end Step

namespace Reader

variable {r : Reader} {text : List Char} {step : Step}

theorem ofOpen_read (ht : r.text = some text) : ∀ e ∈ r.read.log, e.ofOpen = true := by
  rw [read, withText_of_open ht]
  cases text[r.cursor]? <;> simp [Event.ofOpen]

theorem ofOpen_next (ht : r.text = some text) : ∀ e ∈ r.next.log, e.ofOpen = true := by
  cases hr : r.rest with
  | nil => simp [next_of_rest_nil ht hr]
  | cons c cs => simp [next_of_rest_cons hr, Event.ofOpen]

theorem ofOpen_drain (ht : r.text = some text) : ∀ e ∈ r.drain.log, e.ofOpen = true := by
  fun_induction drain r with
  | case1 r h => exact ofOpen_next ht
  | case2 r c h turn ih =>
    intro e he
    rcases List.mem_append.1 he with he | he
    · exact ofOpen_next ht e he
    · exact ih ((moved_next r).text.trans ht) e he

theorem ofOpen_readInto (ht : r.text = some text) (dest : List Char) (offset max : Nat) :
    ∀ e ∈ (r.readInto dest offset max).log, e.ofOpen = true := by
  simp only [readInto, ht]
  split
  · simp
  split
  · simp
  split <;> simp [Event.ofOpen]

theorem ofOpen_unread (ht : r.text = some text) (count : Nat) :
    ∀ e ∈ (r.unread count).log, e.ofOpen = true := by
  rw [unread, withText_of_open ht]
  split <;> simp [Event.ofOpen]

theorem ofOpen_perform (ht : r.text = some text) (hs : step ≠ .close) :
    ∀ e ∈ (r.perform step).log, e.ofOpen = true := by
  cases step with
  | read => exact ofOpen_read ht
  | next | nextCode => exact ofOpen_next ht
  | drain => exact ofOpen_drain ht
  | readInto dest offset max => exact ofOpen_readInto ht dest offset max
  | unread count => exact ofOpen_unread ht count
  | unreadOne => exact ofOpen_unread ht 1
  | load | clear | skip => simp [perform, load, clear, skip, withText_of_open ht, Event.ofOpen]
  | mark limit =>
    simp only [perform, mark, withText_of_open ht]
    split <;> simp [Event.ofOpen]
  | reset =>
    simp only [perform, reset, withText_of_open ht]
    cases r.marks.target? <;> simp [Event.ofOpen]
  | rewind =>
    simp only [perform, rewind, withText_of_open ht]
    cases r.marks.target? <;> simp [Event.ofOpen]
  | release =>
    simp only [perform, release, withText_of_open ht]
    cases r.marks.newest <;> simp
  | peek | peekCode => simp [perform, peek, look, contents, ht, Except.map]
  | close => exact absurd rfl hs
  | ready | look | remainder | snapshot | canMark | setLine | position => simp [perform, tell]

theorem log_perform_of_closed (ht : r.text = none) (step : Step) :
    (r.perform step).log = step.hidden := by
  rcases r with ⟨_ | text, cursor, marks, line⟩
  · cases step with
    | mark limit =>
      simp only [perform, mark, withText]
      split <;> rfl
    | drain =>
      simp only [perform, Turn.log_map]
      rw [drain_of_none rfl]
      rfl
    | _ => rfl
  · cases ht

theorem text_perform_of_closed (ht : r.text = none) (step : Step) :
    (r.perform step).after.text = none := by
  rw [text_perform]
  cases step <;> simp [textAfter, ht]

theorem cursor_perform_of_closed (ht : r.text = none) (step : Step) :
    (r.perform step).after.cursor = r.cursor := by
  rw [after_perform_of_closed ht]
  cases step <;> rfl

theorem afterAll_of_closed (ht : r.text = none) (steps : List Step) :
    (r.afterAll steps).text = none ∧ (r.afterAll steps).cursor = r.cursor := by
  induction steps generalizing r with
  | nil => exact ⟨ht, rfl⟩
  | cons step steps ih =>
    have hlater := ih (text_perform_of_closed ht step)
    rwa [cursor_perform_of_closed ht] at hlater

theorem line_afterAll (r : Reader) (steps : List Step) :
    (r.afterAll steps).line = Step.lastLine r.line steps := by
  induction steps generalizing r with
  | nil => rfl
  | cons step steps ih =>
    rw [afterAll_cons, ih, line_perform, Step.lastLine_cons]
    cases step <;> rfl

theorem logAll_of_closed (ht : r.text = none) (steps : List Step) :
    r.logAll steps = steps.flatMap Step.hidden := by
  induction steps generalizing r with
  | nil => rfl
  | cons step steps ih =>
    rw [logAll_cons, List.flatMap_cons, log_perform_of_closed ht,
      ih (text_perform_of_closed ht step)]

theorem ofOpen_logAll (ht : r.text = some text) {steps : List Step} (hs : Step.close ∉ steps) :
    ∀ e ∈ r.logAll steps, e.ofOpen = true := by
  induction steps generalizing r text with
  | nil => simp [logAll]
  | cons step steps ih =>
    obtain ⟨hne, hlater⟩ := not_or.1 (mt List.mem_cons.2 hs)
    have hopen : (r.perform step).after.isClosed = false := by
      rw [isClosed_perform, decide_eq_false (Ne.symm hne), Bool.false_or, isClosed, ht]
      rfl
    obtain ⟨text', ht'⟩ := exists_text_of_open hopen
    intro e he
    rw [logAll_cons] at he
    rcases List.mem_append.1 he with he | he
    · exact ofOpen_perform ht (Ne.symm hne) e he
    · exact ih ht' hlater e he

/-- All that can still be found out about a closed reader, and how it meets every call. -/
structure Ended (r : Reader) (offset depth line : Nat) : Prop where
  status : r.status = {
    isClosed := true, offset, length := 0, isEmpty := true, line, marksHeld := 0, markDepth := depth }
  refuses : ∀ step, step.needsText = true →
    (r.perform step).answer = { outcome := .error .closed, dest := step.dest? }
  negative : ∀ limit < 0, (r.perform (.mark limit)).answer =
    { outcome := .error (.badArgument "mark" "read-ahead limit < 0") }
  exhausted : r.peek.answer = none ∧ r.next.answer = none ∧ r.drain.answer = []

theorem WellFormed.ended (hr : r.WellFormed) (ht : r.text = none) :
    r.Ended r.cursor r.marks.depth r.line where
  status := by
    have hlen : r.length = 0 := by simp [length, ht]
    simp [Reader.status, isClosed, ht, hlen, hr.held_closed ht]
  refuses step hs := by
    have hrefuses : r.Refuses step .closed := .closed hs (isClosed_iff.2 ht)
    have houtcome := (r.error_iff_refuses step .closed).2 hrefuses
    have hdest := (leavesAll_of_refuses hrefuses).dest
    rw [← houtcome, ← hdest]
  negative limit hl := by
    rw [Reader.perform, mark, if_pos hl]
    rfl
  exhausted := by
    have hrest := rest_of_closed ht
    rw [answer_peek, answer_next, answer_drain, hrest]
    exact ⟨rfl, rfl, rfl⟩

end Reader

namespace Origin

theorem isClosed_build (origin : Origin) : origin.build.after.isClosed = false := by
  cases origin <;> rfl

theorem isClosed_reader_iff (origin : Origin) (steps : List Step) :
    (origin.reader steps).isClosed = true ↔ Step.close ∈ steps := by
  simp [reader, Reader.isClosed_afterAll, isClosed_build]

theorem ofOpen_log (origin : Origin) {steps : List Step} (hs : Step.close ∉ steps) :
    ∀ e ∈ origin.log steps, e.ofOpen = true := by
  obtain ⟨text, ht⟩ := Reader.exists_text_of_open origin.isClosed_build
  intro e he
  rcases List.mem_append.1 he with he | he
  · cases origin with
    | text cs =>
      obtain rfl := List.mem_singleton.1 he
      rfl
    | blank | tuned => cases he
  · exact Reader.ofOpen_logAll ht hs e he

theorem message_notMem_records (origin : Origin) {steps : List Step} (hs : Step.close ∉ steps) :
    ∀ r ∈ origin.records steps, r.message ∉ Event.endMessages := by
  intro r hr
  obtain ⟨e, he, rfl⟩ := List.mem_map.1 hr
  exact Event.message_notMem_of_ofOpen (origin.ofOpen_log hs e he)

theorem ended_later (origin : Origin) (steps later : List Step)
    (hc : (origin.reader steps).isClosed = true) :
    (origin.reader (steps ++ later)).Ended (origin.reader steps).cursor origin.depth
      (Step.lastLine (origin.reader steps).line later) := by
  obtain ⟨htext, hcursor⟩ := Reader.afterAll_of_closed (Reader.isClosed_iff.1 hc) later
  rw [← reader_append] at htext hcursor
  have hended := (origin.wellFormed_reader (steps ++ later)).ended htext
  rwa [hcursor, origin.depth_reader, origin.reader_append, Reader.line_afterAll,
    ← origin.reader_append] at hended

/-- The log of a whole run: what an open reader logs, its end, and what was hidden since. -/
theorem log_of_close (origin : Origin) {before after : List Step} (hb : Step.close ∉ before) :
    origin.log (before ++ .close :: after) =
      origin.log before ++
        .closed (origin.reader (before ++ .close :: after)).cursor :: after.flatMap Step.hidden := by
  have hopen : (origin.reader before).isClosed = false :=
    Bool.eq_false_iff.2 fun hc => hb ((origin.isClosed_reader_iff before).1 hc)
  have hclosed : ((origin.reader before).perform .close).after.text = none := rfl
  have hcursor : (origin.reader (before ++ .close :: after)).cursor = (origin.reader before).cursor := by
    rw [origin.reader_append, Reader.afterAll_cons, (Reader.afterAll_of_closed hclosed after).2]
    rfl
  have hclose : ((origin.reader before).perform .close).log =
      [.closed (origin.reader before).cursor] := by
    simp [Reader.perform, Reader.close, hopen]
  have hlater := Reader.logAll_of_closed hclosed after
  rw [hcursor, log, log, Reader.logAll_append, List.append_assoc]
  change _ ++ (_ ++ (origin.reader before).logAll (.close :: after)) = _
  rw [Reader.logAll_cons, hclose, hlater]
  rfl

theorem records_of_close (origin : Origin) {before after : List Step} (hb : Step.close ∉ before) :
    origin.records (before ++ .close :: after) =
      origin.records before ++
        ⟨.debug, "stream closed",
            [("offset", .number (origin.reader (before ++ .close :: after)).status.offset)]⟩ ::
          after.filterMap Step.hiddenRecord? := by
  rw [records, origin.log_of_close hb, List.map_append, List.map_cons, Step.map_record_flatMap_hidden]
  rfl

theorem countP_closed_records (origin : Origin) {before after : List Step} (hb : Step.close ∉ before) :
    (origin.records (before ++ .close :: after)).countP (·.message = "stream closed") = 1 := by
  have hbefore : (origin.records before).countP (·.message = "stream closed") = 0 := by
    rw [List.countP_eq_zero]
    intro r hr
    have hmessage := origin.message_notMem_records hb r hr
    simp only [Event.endMessages, List.mem_cons, not_or] at hmessage
    simpa using hmessage.1
  have hafter : (after.filterMap Step.hiddenRecord?).countP (·.message = "stream closed") = 0 := by
    rw [List.countP_eq_zero]
    intro r hr
    obtain ⟨step, -, hstep⟩ := List.mem_filterMap.1 hr
    simpa using Step.message_ne_of_hiddenRecord? hstep
  rw [origin.records_of_close hb, List.countP_append, hbefore, List.countP_cons, hafter]
  simp

end Origin

/-- A closed reader stays so and meets every call in one way. In its log the end is written once, with the
cursor that stays, no hidden refusal comes before that, and afterwards nothing else does. -/
theorem Origin.closing_is_terminal (origin : Origin) (steps : List Step) :
    ((origin.reader steps).isClosed = true ↔ .close ∈ steps) ∧
    ((origin.reader steps).isClosed = true → ∀ later,
      (origin.reader (steps ++ later)).Ended (origin.reader steps).status.offset origin.depth
        (Step.lastLine (origin.reader steps).status.line later)) ∧
    (.close ∉ steps → ∀ r ∈ origin.records steps, r.message ∉ Event.endMessages) ∧
    ∀ before after, steps = before ++ .close :: after → .close ∉ before →
      origin.records steps =
        origin.records before ++
          ⟨.debug, "stream closed", [("offset", .number (origin.reader steps).status.offset)]⟩ ::
            after.filterMap Step.hiddenRecord? ∧
      (∀ r ∈ origin.records before, r.message ∉ Event.endMessages) ∧
      (origin.records steps).countP (·.message = "stream closed") = 1 := by
  refine ⟨origin.isClosed_reader_iff steps, fun hc later => origin.ended_later steps later hc,
    origin.message_notMem_records, ?_⟩
  rintro before after rfl hb
  exact ⟨origin.records_of_close hb, origin.message_notMem_records hb, origin.countP_closed_records hb⟩

/-- A reader that is closed behind its first character: it cannot be loaded again, and its log goes
on with what two lenient calls hid. -/
theorem closed_behind_first_char :
    ((Origin.text ['a', 'b']).reader [.read, .close, .peek]).isClosed = true ∧
    ((Origin.text ['a', 'b']).reader
      ([.read, .close, .peek] ++ [.setLine 7, .load ['c'], .next, .setLine 9, .rewind])).Ended 1 1 9 ∧
    (∀ r ∈ (Origin.text ['a', 'b']).records [.read], r.message ∉ Event.endMessages) ∧
    (Origin.text ['a', 'b']).records [.read, .close, .peek, .load ['c'], .next] =
      (Origin.text ['a', 'b']).records [.read] ++
        [⟨.debug, "stream closed", [("offset", .number 1)]⟩,
          ⟨.debug, "peek reported as EOF", [("err", .text "stream closed")]⟩,
          ⟨.debug, "getch reported as EOF", [("err", .text "stream closed")]⟩] := by
  have hc : ((Origin.text ['a', 'b']).reader [.read, .close, .peek]).isClosed = true := rfl
  have hended := ((Origin.text ['a', 'b']).closing_is_terminal [.read, .close, .peek]).2.1 hc
  have hread := ((Origin.text ['a', 'b']).closing_is_terminal [.read]).2.2.1 (by decide)
  have hrun := (Origin.text ['a', 'b']).closing_is_terminal
    [.read, .close, .peek, .load ['c'], .next]
  have hlog := hrun.2.2.2 [.read] [.peek, .load ['c'], .next] rfl (by decide)
  exact ⟨hc, hended _, hread, hlog.1⟩

end Retrace
