import Retrace.Proofs.Closing

/-! The line is a note that the owner of a reader makes on it. No call but the one that tells the
position reads it, and no call but the one that sets it writes it, so histories that only differ in
the notes are the same history, and the note is always the last one that was made. -/
namespace Retrace

def Value.unlined : Value → Value
  | .position p => .position { p with line := 0 }
  | v => v

def Reply.unlined (reply : Reply) : Reply :=
  { reply with outcome := reply.outcome.map Value.unlined }

def Reader.unlined (r : Reader) : Reader := r.setLine 0

def Turn.unlined (turn : Turn Reader Reply) : Turn Reader Reply :=
  ⟨turn.answer.unlined, turn.after.unlined, turn.log⟩

/-- A history from which all calls that set the line are deleted. -/
def Step.unlined (steps : List Step) : List Step := steps.filter fun step => step.line?.isNone

theorem Step.unlined_cons_of_none {step : Step} (h : step.line? = none) (steps : List Step) :
    unlined (step :: steps) = step :: unlined steps := by
  simp [unlined, h]

namespace Reader

/-- The turns of all calls but those that set the line. -/
def turnsBetweenNotes (r : Reader) (steps : List Step) : List (Turn Reader Reply) :=
  ((steps.zip (r.turns steps)).filter fun entry => entry.1.line?.isNone).map (·.2)

theorem turnsBetweenNotes_of_none (r : Reader) {step : Step} (h : step.line? = none)
    (steps : List Step) :
    r.turnsBetweenNotes (step :: steps) =
      r.perform step :: (r.perform step).after.turnsBetweenNotes steps := by
  simp [turnsBetweenNotes, h]

/-- No call but the one that tells the position reads the line, and it is kept by all but the one
that sets it. -/
theorem perform_setLine (r : Reader) (line : Nat) {step : Step} (h : step.line? = none)
    (hp : step ≠ .position) :
    (r.setLine line).perform step = (r.perform step).lift (·.setLine line) := by
  cases hm : step.onlyMoves with
  | true =>
    have hmarks := (moved_perform r hm).marks
    change (r.relabel r.marks line).perform step = _
    rw [perform_relabel r r.marks hm fun hpos => absurd hpos hp, Turn.lift, Turn.lift, relabel, setLine,
      hmarks]
  | false =>
    rcases r with ⟨text, cursor, marks, was⟩
    cases step with
    | load | clear | close => cases text <;> rfl
    | mark limit =>
      simp only [perform, mark, setLine, withText]
      cases text <;> split <;> rfl
    | reset =>
      simp only [perform, reset, setLine, withText]
      cases text <;> cases marks.target? <;> rfl
    | rewind =>
      simp only [perform, rewind, setLine, withText]
      cases text <;> cases marks.target? <;> rfl
    | release =>
      simp only [perform, release, setLine, withText]
      cases text <;> cases marks.newest <;> rfl
    | setLine => cases h
    | _ => cases hm

theorem unlined_perform (r : Reader) {step : Step} (h : step.line? = none) :
    (r.unlined.perform step).after = (r.perform step).after.unlined ∧
      (r.unlined.perform step).unlined = (r.perform step).unlined := by
  by_cases hp : step = .position
  · subst hp
    exact ⟨rfl, rfl⟩
  · rw [unlined, perform_setLine r 0 h hp]
    exact ⟨rfl, rfl⟩

/-- With its notes or without them, a history is the same, the line apart. -/
theorem unlined_turns (r : Reader) (steps : List Step) :
    (r.turnsBetweenNotes steps).map Turn.unlined =
        (r.unlined.turns (Step.unlined steps)).map Turn.unlined ∧
      (r.afterAll steps).unlined = r.unlined.afterAll (Step.unlined steps) := by
  induction steps generalizing r with
  | nil => exact ⟨rfl, rfl⟩
  | cons step steps ih =>
    obtain ⟨hturns, hfinish⟩ := ih (r.perform step).after
    cases h : step.line? with
    | some line =>
      obtain rfl : step = .setLine line := by
        cases step <;> first | cases h; rfl | cases h
      exact ⟨hturns, hfinish⟩
    | none =>
      obtain ⟨hafter, hturn⟩ := r.unlined_perform h
      rw [Step.unlined_cons_of_none h, r.turnsBetweenNotes_of_none h, turns_cons, List.map_cons,
        List.map_cons, hturn, hafter, hturns, afterAll_cons, afterAll_cons, hafter]
      exact ⟨rfl, hfinish⟩

end Reader

namespace Origin

/-- The same origin on another line, where a line can be chosen. -/
def onLine (line : Nat) : Origin → Origin
  | .tuned settings => .tuned { settings with firstLine := line }
  | origin => origin

theorem build_onLine (origin : Origin) (line : Nat) :
    (origin.onLine line).build.log = origin.build.log ∧
      (origin.onLine line).build.after.unlined = origin.build.after.unlined := by
  cases origin <;> exact ⟨rfl, rfl⟩

theorem line_build (origin : Origin) : origin.build.after.line = origin.settings.firstLine := by
  cases origin <;> rfl

theorem line_reader (origin : Origin) (steps : List Step) :
    (origin.reader steps).line = Step.lastLine origin.settings.firstLine steps := by
  rw [reader, Reader.line_afterAll, line_build]

end Origin

/-- Calls that set the line can be moved, added and deleted, and nothing but the line shows it; the line
is what the last of them said. -/
theorem Origin.line_is_only_a_note (origin : Origin) (line : Nat) (steps steps' : List Step)
    (hs : Step.unlined steps = Step.unlined steps') :
    let start := origin.build
    let start' := (origin.onLine line).build
    (start'.log = start.log ∧ start'.after.unlined = start.after.unlined) ∧
    (start'.after.turnsBetweenNotes steps').map Turn.unlined =
      (start.after.turnsBetweenNotes steps).map Turn.unlined ∧
    ((origin.onLine line).reader steps').unlined = (origin.reader steps).unlined ∧
    ∀ past, (origin.reader past).status.line = Step.lastLine origin.settings.firstLine past ∧
      ((origin.reader past).perform .position).answer = .ok (.position
        ⟨Step.lastLine origin.settings.firstLine past, (origin.reader past).status.offset⟩) := by
  intro start start'
  have hbuild := origin.build_onLine line
  obtain ⟨hturns, hfinish⟩ := start.after.unlined_turns steps
  obtain ⟨hturns', hfinish'⟩ := start'.after.unlined_turns steps'
  refine ⟨hbuild, ?_, ?_, fun past => ?_⟩
  · rw [hturns, hturns', hbuild.2, hs]
  · exact hfinish'.trans (by rw [hbuild.2, ← hs]; exact hfinish.symm)
  · rw [← origin.line_reader past]
    exact ⟨rfl, rfl⟩

/-- A line break is read and gone back over, and the text is replaced; notes are made in different
places, and on readers that were made on different lines. -/
theorem notes_around_line_break :
    Step.unlined [.load ['a', '\n'], .setLine 4, .mark 0, .skip 1, .read, .rewind, .position, .clear] =
        Step.unlined [.load ['a', '\n'], .mark 0, .skip 1, .setLine 2, .read, .setLine 8, .rewind,
          .position, .setLine 9, .clear] ∧
    ((Origin.tuned { firstLine := 7 }).build.after.turnsBetweenNotes
        [.load ['a', '\n'], .mark 0, .skip 1, .setLine 2, .read, .setLine 8, .rewind, .position,
          .setLine 9, .clear]).map Turn.unlined =
      ((Origin.tuned { firstLine := 3 }).build.after.turnsBetweenNotes
        [.load ['a', '\n'], .setLine 4, .mark 0, .skip 1, .read, .rewind, .position, .clear]).map
          Turn.unlined ∧
    ((Origin.tuned { firstLine := 3 }).reader
      [.load ['a', '\n'], .setLine 4, .mark 0, .skip 1, .read, .rewind, .position, .clear]).status.line =
        4 := by
  have hs : Step.unlined
        [.load ['a', '\n'], .setLine 4, .mark 0, .skip 1, .read, .rewind, .position, .clear] =
      Step.unlined [.load ['a', '\n'], .mark 0, .skip 1, .setLine 2, .read, .setLine 8, .rewind,
        .position, .setLine 9, .clear] := rfl
  have hall := (Origin.tuned { firstLine := 3 }).line_is_only_a_note 7 _ _ hs
  exact ⟨hs, hall.2.1, (hall.2.2.2 _).1⟩

end Retrace
