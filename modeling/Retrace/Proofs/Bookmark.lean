import Retrace.Proofs.Bracket
import Retrace.Proofs.Depths

/-! Histories that never take a mark off. However deep the stack is and however many marks it
loses, only the newest mark can be gone back to, so a single saved cursor does the same. -/
namespace Retrace

/-- A reader with room for one saved cursor. -/
structure Bookmark where
  text : Option (List Char)
  cursor : Nat
  saved : Option Nat := none
  line : Nat := 0
  deriving DecidableEq, Repr

namespace Bookmark

def unmarked (b : Bookmark) : Reader := ⟨b.text, b.cursor, { depth := 1 }, b.line⟩

def moveTo (b : Bookmark) (r : Reader) : Bookmark :=
  { b with text := r.text, cursor := r.cursor, line := r.line }

/-- Grant a call that needs the text, or refuse it once the text is gone. -/
def grant (b after : Bookmark) : Reply × Bookmark :=
  if b.text.isNone then ({ outcome := .error .closed }, b) else (.ok .unit, after)

/-- A mark overwrites the saved cursor and `reset` keeps it; a new text and the end erase it. No
other call knows of it. -/
def perform (b : Bookmark) : Step → Reply × Bookmark
  | .load text => b.grant { b with text := some text, cursor := 0, saved := none }
  | .clear => b.grant { b with text := some [], cursor := 0, saved := none }
  | .close => (.ok .unit, { b with text := none, saved := none })
  | .mark limit =>
      if limit < 0 then ({ outcome := .error (.badArgument "mark" "read-ahead limit < 0") }, b)
      else b.grant { b with saved := some b.cursor }
  | .reset => b.grant { b with cursor := b.saved.getD 0 }
  | .setLine line => (.ok .unit, { b with line })
  | step => ((b.unmarked.perform step).answer, b.moveTo (b.unmarked.perform step).after)

def replies (b : Bookmark) : List Step → List Reply
  | [] => []
  | step :: steps => (b.perform step).1 :: (b.perform step).2.replies steps

def afterAll (b : Bookmark) : List Step → Bookmark
  | [] => b
  | step :: steps => (b.perform step).2.afterAll steps

theorem perform_of_onlyMoves (b : Bookmark) {step : Step} (h : step.onlyMoves = true) :
    b.perform step = ((b.unmarked.perform step).answer, b.moveTo (b.unmarked.perform step).after) := by
  cases step <;> first | rfl | cases h

/-- A reader that stands where the other one does, and whose newest mark is the saved cursor. -/
structure Mirrors (b : Bookmark) (r : Reader) : Prop where
  agree : Reader.Agree b.unmarked r
  newest : r.marks.newest = b.saved.elim .absent .known

namespace Mirrors

variable {b : Bookmark} {r : Reader} {step : Step}

theorem target? (h : b.Mirrors r) : r.marks.target? = some (b.saved.getD 0) := by
  unfold Marks.target?
  rw [h.newest]
  cases b.saved <;> rfl

theorem refusesLost (h : b.Mirrors r) (step : Step) :
    (r.perform step).answer.refusesLost = false := by
  refine Bool.eq_false_iff.2 fun hl => ?_
  obtain ⟨-, -, hlost⟩ := (r.refusesLost_perform_iff step).1 hl
  rw [h.newest] at hlost
  cases hs : b.saved <;> simp [hs] at hlost

theorem perform_of_onlyMoves (h : b.Mirrors r) (hm : step.onlyMoves = true) :
    (r.perform step).answer = (b.perform step).1 ∧
      (b.perform step).2.Mirrors (r.perform step).after := by
  obtain ⟨hanswer, hafter⟩ := h.agree.perform_of_not_usesMark (Step.usesMark_of_onlyMoves hm)
  rw [b.perform_of_onlyMoves hm]
  refine ⟨hanswer, ⟨hafter.text, hafter.cursor, hafter.line⟩, ?_⟩
  rw [(r.moved_perform hm).marks]
  exact h.newest

theorem perform (h : b.Mirrors r) (hs : step.takesMark = false) :
    (r.perform step).answer = (b.perform step).1 ∧
      (b.perform step).2.Mirrors (r.perform step).after := by
  cases hm : step.onlyMoves with
  | true => exact h.perform_of_onlyMoves hm
  | false =>
    -- what is left concerns the mark, the text or the line, and is written out for the bookmark
    have htarget := h.target?
    have hnewest := h.newest
    obtain ⟨⟨htext, hcursor, hline⟩, -⟩ := h
    rcases r with ⟨text, cursor, marks, line⟩
    rcases b with ⟨_, _, saved, _⟩
    simp only [unmarked] at htext hcursor hline
    subst htext hcursor hline
    cases text with
    | none =>
      cases step with
      | mark limit =>
        simp only [Reader.perform, Reader.mark, Reader.withText, Bookmark.perform]
        split <;> exact ⟨rfl, ⟨rfl, rfl, rfl⟩, hnewest⟩
      | load | clear | reset | setLine => exact ⟨rfl, ⟨rfl, rfl, rfl⟩, hnewest⟩
      | close => exact ⟨rfl, ⟨rfl, rfl, rfl⟩, rfl⟩
      | rewind | release => cases hs
      | _ => cases hm
    | some text =>
      cases step with
      | mark limit =>
        simp only [Reader.perform, Reader.mark, Reader.withText, Bookmark.perform]
        split
        · exact ⟨rfl, ⟨rfl, rfl, rfl⟩, hnewest⟩
        · exact ⟨rfl, ⟨rfl, rfl, rfl⟩, Marks.newest_push marks cursor⟩
      | reset =>
        simp only [Reader.perform, Reader.reset, Reader.withText, htarget]
        exact ⟨rfl, ⟨rfl, rfl, rfl⟩, hnewest⟩
      | load | clear | close => exact ⟨rfl, ⟨rfl, rfl, rfl⟩, rfl⟩
      | setLine => exact ⟨rfl, ⟨rfl, rfl, rfl⟩, hnewest⟩
      | rewind | release => cases hs
      | _ => cases hm

theorem run (h : b.Mirrors r) {steps : List Step} (hs : ∀ step ∈ steps, step.takesMark = false) :
    r.replies steps = b.replies steps ∧ (b.afterAll steps).Mirrors (r.afterAll steps) ∧
      ∀ reply ∈ r.replies steps, reply.refusesLost = false := by
  induction steps generalizing b r with
  | nil => exact ⟨rfl, h, fun _ hm => absurd hm List.not_mem_nil⟩
  | cons step steps ih =>
    obtain ⟨hanswer, hafter⟩ := h.perform (hs step List.mem_cons_self)
    obtain ⟨hreplies, hfinish, hkept⟩ := ih hafter fun s hm => hs s (List.mem_cons_of_mem _ hm)
    refine ⟨?_, hfinish, ?_⟩
    · rw [Reader.replies_cons, replies, hanswer, hreplies]
    · rw [Reader.replies_cons]
      exact List.forall_mem_cons.2 ⟨h.refusesLost step, hkept⟩

end Mirrors
end Bookmark

/-- How many marks there are after a granted call, if no mark is ever taken off or lost. -/
def Step.countMarks (n : Nat) : Step → Nat
  | .mark _ => n + 1
  | .load _ | .clear => 0
  | _ => n

namespace Reader

/-- How many marks were granted since the text was last replaced. -/
def marksSince (r : Reader) (n : Nat) (steps : List Step) : Nat :=
  (r.granted steps).foldl Step.countMarks n

theorem marksSince_cons (r : Reader) (n : Nat) (step : Step) (steps : List Step) :
    r.marksSince n (step :: steps) = (r.perform step).after.marksSince
      (if (r.perform step).answer.isRefusal then n else step.countMarks n) steps := by
  rw [marksSince, granted_cons]
  split <;> rfl

theorem length_held_perform {r : Reader} (hr : r.WellFormed) {text : List Char}
    (ht : r.text = some text) {n : Nat} (hn : r.marks.held.length = min r.marks.depth n)
    {step : Step} (hs : step.takesMark = false) (hc : step ≠ .close) :
    (r.perform step).after.marks.held.length =
      min r.marks.depth (if (r.perform step).answer.isRefusal then n else step.countMarks n) := by
  have hd := hr.depth_pos
  cases step with
  | mark limit =>
    by_cases hl : limit < 0
    · simp [perform, mark, hl, Reply.isRefusal, Reply.ofExcept, Except.map, hn]
    · have hlen := congrArg List.length (Marks.held_push hr.length_held r.cursor)
      simp only [List.length_cons, List.length_take] at hlen
      simp only [perform, mark_of_nonneg ht (Int.not_lt.1 hl), Turn.after_map, Turn.answer_map,
        Reply.isRefusal, Reply.ofExcept, Except.map, hlen]
      rw [if_neg Bool.false_ne_true, Step.countMarks]
      omega
  | load | clear =>
    simp [perform, load, clear, withText_of_open ht, Reply.isRefusal, Reply.ofExcept, Except.map,
      Step.countMarks]
  | close => exact absurd rfl hc
  | rewind | release => cases hs
  | _ =>
    rw [marks_perform hr]
    simp only [Step.countMarks, ite_self]
    exact hn

theorem length_held_afterAll {r : Reader} (hr : r.WellFormed) {n : Nat}
    (hn : r.isClosed = false → r.marks.held.length = min r.marks.depth n) {steps : List Step}
    (hs : ∀ step ∈ steps, step.takesMark = false) (ho : (r.afterAll steps).isClosed = false) :
    (r.afterAll steps).marks.held.length = min r.marks.depth (r.marksSince n steps) := by
  induction steps generalizing r n with
  | nil => exact hn ho
  | cons step steps ih =>
    have hdepth : (r.perform step).after.marks.depth = r.marks.depth := by
      rw [marks_perform hr, Marks.depth_change]
    rw [← hdepth, marksSince_cons]
    -- closing drops all marks without a count, but nothing opens the reader again
    refine ih (hr.perform step) (fun hopen => ?_) (fun s hm => hs s (List.mem_cons_of_mem _ hm)) ho
    rw [isClosed_perform, Bool.or_eq_false_iff, decide_eq_false_iff_not] at hopen
    obtain ⟨text, ht⟩ := exists_text_of_open hopen.2
    rw [hdepth]
    exact length_held_perform hr ht (hn hopen.2) (hs step List.mem_cons_self) hopen.1

end Reader

namespace Origin

def bookmark : Origin → Bookmark
  | .blank => { text := some [], cursor := 0 }
  | .text cs => { text := some cs, cursor := 0 }
  | .tuned settings => { text := some [], cursor := 0, line := settings.firstLine }

def marksSince (origin : Origin) (steps : List Step) : Nat := origin.build.after.marksSince 0 steps

theorem mirrors_bookmark (origin : Origin) : origin.bookmark.Mirrors origin.build.after := by
  cases origin <;> exact ⟨⟨rfl, rfl, rfl⟩, rfl⟩

end Origin

/-- As long as no mark is taken off, a stack of any depth does what a single saved cursor does. -/
theorem Origin.unreleased_marks_act_as_bookmark (origin : Origin) (steps : List Step)
    (hs : ∀ step ∈ steps, step.takesMark = false) :
    origin.build.after.replies steps = origin.bookmark.replies steps ∧
    ((origin.reader steps).text = (origin.bookmark.afterAll steps).text ∧
      (origin.reader steps).cursor = (origin.bookmark.afterAll steps).cursor ∧
      (origin.reader steps).line = (origin.bookmark.afterAll steps).line) ∧
    (∀ reply ∈ origin.build.after.replies steps, reply.refusesLost = false) ∧
    ((origin.reader steps).isClosed = false →
      (origin.reader steps).status.marksHeld = min origin.depth (origin.marksSince steps)) := by
  obtain ⟨hreplies, ⟨hagree, -⟩, hkept⟩ := origin.mirrors_bookmark.run hs
  refine ⟨hreplies, ⟨hagree.text, hagree.cursor, hagree.line⟩, hkept, fun ho => ?_⟩
  have hnone : origin.build.after.marks.held.length = min origin.build.after.marks.depth 0 := by
    rw [marks_build, Nat.min_zero]
    rfl
  have hheld := Reader.length_held_afterAll origin.wellFormed_build (fun _ => hnone) hs ho
  rwa [marks_build] at hheld

/-- Three marks on a stack of depth two: the oldest is lost and never missed. -/
theorem three_marks_act_as_bookmark :
    (∀ step ∈ [Step.load ['a', 'b', 'c'], .mark 0, .read, .mark 1, .read, .mark (-1), .mark 0,
      .read, .reset, .reset], step.takesMark = false) ∧
    (Origin.tuned { markDepth := 2 }).build.after.replies
        [.load ['a', 'b', 'c'], .mark 0, .read, .mark 1, .read, .mark (-1), .mark 0, .read, .reset,
          .reset] =
      (Origin.tuned { markDepth := 2 }).bookmark.replies
        [.load ['a', 'b', 'c'], .mark 0, .read, .mark 1, .read, .mark (-1), .mark 0, .read, .reset,
          .reset] ∧
    ((Origin.tuned { markDepth := 2 }).reader
        [.load ['a', 'b', 'c'], .mark 0, .read, .mark 1, .read, .mark (-1), .mark 0, .read, .reset,
          .reset]).status.marksHeld = min 2 3 := by
  have hs : ∀ step ∈ [Step.load ['a', 'b', 'c'], .mark 0, .read, .mark 1, .read, .mark (-1),
      .mark 0, .read, .reset, .reset], step.takesMark = false := by decide
  have hall := (Origin.tuned { markDepth := 2 }).unreleased_marks_act_as_bookmark _ hs
  exact ⟨hs, hall.1, hall.2.2.2 rfl⟩

end Retrace
