import Retrace.Proofs.Calls

/-! The invariant of every reader that a history can lead to: the cursor and all marks lie in
the text, no more marks are held than the depth allows, and a closed reader has no marks.
Given the invariant, the marks after a call are one of four changes of the marks before it. -/
namespace Retrace
namespace Marks

theorem mem_held_push {m : Marks} {cursor p : Nat} (h : p ∈ (m.push cursor).held) :
    p = cursor ∨ p ∈ m.held := by
  unfold push at h
  split at h
  · rcases List.mem_cons.1 h with h | h
    · exact .inl h
    · exact .inr (List.dropLast_subset _ h)
  · exact List.mem_cons.1 h

theorem held_drop (m : Marks) : m.drop.held = m.held.tail := by
  unfold drop
  split <;> simp_all

theorem mem_held_drop {m : Marks} {p : Nat} (h : p ∈ m.drop.held) : p ∈ m.held :=
  List.mem_of_mem_tail (m.held_drop ▸ h)

theorem length_held_drop_le (m : Marks) : m.drop.held.length ≤ m.held.length := by
  rw [held_drop, List.length_tail]
  omega

theorem eq_zero_or_mem_of_target? {m : Marks} {cursor : Nat} (h : m.target? = some cursor) :
    cursor = 0 ∨ cursor ∈ m.held := by
  unfold target? newest at h
  cases hm : m.held with
  | nil =>
    by_cases hl : m.lost = 0
    · simp [hm, hl] at h
      exact .inl h.symm
    · simp [hm, hl] at h
  | cons p older =>
    simp [hm] at h
    simp [h]

end Marks

namespace Origin

/-- The settings that a reader was built with. -/
def settings : Origin → Settings
  | .tuned settings => settings
  | _ => .standard

def depth (origin : Origin) : Nat := origin.settings.effectiveDepth

/-- The reader after a history. -/
def reader (origin : Origin) (steps : List Step) : Reader := origin.build.after.afterAll steps

theorem reader_append (origin : Origin) (xs ys : List Step) :
    origin.reader (xs ++ ys) = (origin.reader xs).afterAll ys :=
  Reader.afterAll_append ..

theorem marks_build (origin : Origin) : origin.build.after.marks = { depth := origin.depth } := by
  cases origin <;> rfl

end Origin

namespace Reader

structure WellFormed (r : Reader) : Prop where
  cursor_le : r.text ≠ none → r.cursor ≤ r.length
  held_le : ∀ cursor ∈ r.marks.held, cursor ≤ r.length
  length_held : r.marks.held.length ≤ r.marks.depth
  depth_pos : 0 < r.marks.depth
  held_closed : r.text = none → r.marks.held = []
  lost_closed : r.text = none → r.marks.lost = 0

theorem Moved.wellFormed {r s : Reader} (h : Moved r s) (hr : r.WellFormed) : s.WellFormed where
  cursor_le ho := by
    rw [h.length]
    exact h.within (hr.cursor_le (h.text ▸ ho))
  held_le := by simpa only [h.marks, h.length] using hr.held_le
  length_held := by simpa only [h.marks] using hr.length_held
  depth_pos := by simpa only [h.marks] using hr.depth_pos
  held_closed := by simpa only [h.marks, h.text] using hr.held_closed
  lost_closed := by simpa only [h.marks, h.text] using hr.lost_closed

namespace WellFormed

variable {r : Reader} {text : List Char}

theorem clear_marks (hr : r.WellFormed) (ht : r.text = none) : r.marks.clear = r.marks := by
  have hh := hr.held_closed ht
  have hl := hr.lost_closed ht
  cases hm : r.marks
  simp_all [Marks.clear]

theorem loaded (hr : r.WellFormed) (text : List Char) :
    (⟨some text, 0, r.marks.clear, r.line⟩ : Reader).WellFormed where
  cursor_le _ := Nat.zero_le _
  held_le := by simp
  length_held := by simp
  depth_pos := hr.depth_pos
  held_closed _ := rfl
  lost_closed _ := rfl

theorem closed (hr : r.WellFormed) : r.close.after.WellFormed where
  cursor_le h := absurd rfl h
  held_le := by simp
  length_held := by simp
  depth_pos := hr.depth_pos
  held_closed _ := rfl
  lost_closed _ := rfl

theorem pushed (hr : r.WellFormed) (ht : r.text = some text) :
    WellFormed { r with marks := r.marks.push r.cursor } where
  cursor_le := hr.cursor_le
  held_le p hp := by
    rcases Marks.mem_held_push hp with rfl | hp
    · exact hr.cursor_le (by simp [ht])
    · exact hr.held_le p hp
  length_held := by simpa using Marks.length_held_push_le hr.depth_pos hr.length_held r.cursor
  depth_pos := by simpa using hr.depth_pos
  held_closed h := by simp [ht] at h
  lost_closed h := by simp [ht] at h

theorem dropped (hr : r.WellFormed) (ht : r.text = some text) :
    WellFormed { r with marks := r.marks.drop } where
  cursor_le := hr.cursor_le
  held_le p hp := hr.held_le p (Marks.mem_held_drop hp)
  length_held := by simpa using Nat.le_trans r.marks.length_held_drop_le hr.length_held
  depth_pos := by simpa using hr.depth_pos
  held_closed h := by simp [ht] at h
  lost_closed h := by simp [ht] at h

theorem target_le (hr : r.WellFormed) (ht : r.text = some text) :
    r.marks.target?.getD r.cursor ≤ r.length := by
  cases hm : r.marks.target? with
  | none => exact hr.cursor_le (by simp [ht])
  | some cursor =>
    rcases Marks.eq_zero_or_mem_of_target? hm with rfl | hp
    · exact Nat.zero_le _
    · exact hr.held_le cursor hp

theorem gone_back (hr : r.WellFormed) (ht : r.text = some text) :
    WellFormed { r with cursor := r.marks.target?.getD r.cursor } :=
  (Moved.mk rfl (fun _ => hr.target_le ht) (fun h => by simp [ht] at h)).wellFormed hr

theorem on_line (hr : r.WellFormed) (line : Nat) : (r.setLine line).WellFormed :=
  ⟨hr.cursor_le, hr.held_le, hr.length_held, hr.depth_pos, hr.held_closed, hr.lost_closed⟩

theorem perform (hr : r.WellFormed) (step : Step) : (r.perform step).after.WellFormed := by
  cases hm : step.onlyMoves with
  | true => exact (moved_perform r hm).wellFormed hr
  | false =>
    cases ht : r.text with
    | none =>
      rw [after_perform_of_closed ht]
      split
      · rw [hr.clear_marks ht]
        exact hr
      · exact hr.on_line _
      · exact hr
    | some text =>
      rw [after_perform_of_open ht hm]
      cases step with
      | load new => exact hr.loaded new
      | clear => exact hr.loaded []
      | close => exact hr.closed
      | mark limit =>
        simp only
        split
        · exact hr
        · exact hr.pushed ht
      | reset => exact hr.gone_back ht
      | rewind => exact (hr.gone_back ht).dropped ht
      | release => exact hr.dropped ht
      | setLine line => exact hr.on_line line
      | _ => exact hr

theorem afterAll (hr : r.WellFormed) (steps : List Step) : (r.afterAll steps).WellFormed := by
  induction steps generalizing r with
  | nil => exact hr
  | cons step steps ih => exact ih (hr.perform step)

end WellFormed

theorem wellFormed_blank (s : Settings) : (blank s).WellFormed where
  cursor_le _ := Nat.zero_le _
  held_le := by simp [blank]
  length_held := Nat.zero_le _
  depth_pos := s.effectiveDepth_pos
  held_closed _ := rfl
  lost_closed _ := rfl

end Reader

theorem Origin.wellFormed_build (origin : Origin) : origin.build.after.WellFormed := by
  cases origin with
  | blank => exact Reader.wellFormed_blank .standard
  | text cs => exact (Reader.wellFormed_blank .standard).loaded cs
  | tuned s => exact Reader.wellFormed_blank s

theorem Origin.wellFormed_reader (origin : Origin) (steps : List Step) :
    (origin.reader steps).WellFormed :=
  origin.wellFormed_build.afterAll steps

/-- What a call can do to marks. -/
inductive Change where
  | keep
  | push (cursor : Nat)
  | drop
  | clear
  deriving DecidableEq, Repr

def Marks.change (m : Marks) : Change → Marks
  | .keep => m
  | .push cursor => m.push cursor
  | .drop => m.drop
  | .clear => m.clear

@[simp] theorem Marks.depth_change (m : Marks) (change : Change) :
    (m.change change).depth = m.depth := by
  cases change <;> simp [Marks.change]

namespace Reader

/-- A mark that is granted adds the cursor. The two calls that take a mark off do so on every
open reader, granted or not. -/
def change (r : Reader) : Step → Change
  | .mark limit => if (r.mark limit).answer.isOk then .push r.cursor else .keep
  | .rewind | .release => if r.isClosed then .keep else .drop
  | .load _ | .clear | .close => .clear
  | _ => .keep

theorem isOk_answer_mark (r : Reader) (limit : Int) :
    (r.mark limit).answer.isOk = (!r.isClosed && decide (0 ≤ limit)) := by
  by_cases hl : limit < 0
  · simp [mark, hl, Except.isOk, Except.toBool]
  · have hl' := Int.not_lt.1 hl
    cases ht : r.text with
    | none => simp [mark, hl, withText_of_closed ht, isClosed, ht, Except.isOk, Except.toBool]
    | some text =>
      simp [mark, hl, hl', withText_of_open ht, isClosed, ht, Except.isOk, Except.toBool]

theorem marks_perform {r : Reader} (hr : r.WellFormed) (step : Step) :
    (r.perform step).after.marks = r.marks.change (r.change step) := by
  cases hm : step.onlyMoves with
  | true =>
    rw [(moved_perform r hm).marks]
    cases step <;> first | rfl | cases hm
  | false =>
    cases ht : r.text with
    | none =>
      have hc : r.isClosed = true := isClosed_iff.2 ht
      rw [after_perform_of_closed ht]
      cases step <;> simp [change, Marks.change, hc, hr.clear_marks ht, isOk_answer_mark, setLine]
    | some text =>
      have hc : r.isClosed = false := by simp [isClosed, ht]
      rw [after_perform_of_open ht hm]
      cases step with
      | mark limit =>
        simp only [change, isOk_answer_mark, hc, Bool.not_false, Bool.true_and, decide_eq_true_eq]
        by_cases hl : limit < 0
        · simp [hl, Int.not_le.2 hl, Marks.change]
        · simp [hl, Int.not_lt.1 hl, Marks.change]
      | _ => simp [change, Marks.change, hc, setLine]

theorem depth_afterAll {r : Reader} (hr : r.WellFormed) (steps : List Step) :
    (r.afterAll steps).marks.depth = r.marks.depth := by
  induction steps generalizing r with
  | nil => rfl
  | cons step steps ih =>
    rw [afterAll_cons, ih (hr.perform step), marks_perform hr, Marks.depth_change]

end Reader

theorem Origin.depth_reader (origin : Origin) (steps : List Step) :
    (origin.reader steps).marks.depth = origin.depth := by
  rw [reader, Reader.depth_afterAll origin.wellFormed_build, marks_build]

end Retrace
