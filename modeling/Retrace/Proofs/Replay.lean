import Retrace.Proofs.Delivery
import Retrace.Proofs.Depths

/-! Going back over what was read. Calls that go on report how far they went, and what they report
adds up to the way of the cursor. To go back by that sum, in one step, by a move, or one character
at a time, leads to where it began, and so does a mark that was made there; the calls can then be
made once more, and reply the same. -/
namespace Retrace
namespace Step

/-- The calls that move on, if they move at all. -/
def goesOn : Step → Bool
  | .unread _ | .unreadOne => false
  | .skip distance => decide (0 ≤ distance)
  | step => step.onlyMoves

theorem onlyMoves_of_goesOn {step : Step} (h : step.goesOn = true) : step.onlyMoves = true := by
  cases step <;> first | rfl | cases h

/-- How far a call went, by its reply. -/
def advance (step : Step) (reply : Reply) : Int :=
  match step, reply.outcome with
  | .read, .ok (.char c) | .next, .ok (.char c) => c.toList.length
  | .nextCode, .ok (.code n) => if n = Lexical.endCode then 0 else 1
  | .readInto .., .ok (.count n) => n.getD 0
  | .drain, .ok (.text cs) => cs.length
  | .skip _, .ok (.moved distance) => distance
  | _, _ => 0

end Step

namespace Reader

def advance (r : Reader) : List Step → Int
  | [] => 0
  | step :: steps => step.advance (r.perform step).answer + (r.perform step).after.advance steps

theorem cursor_after_read (r : Reader) :
    ((r.perform .read).after.cursor : Int) =
      r.cursor + Step.advance .read (r.perform .read).answer := by
  rcases r with ⟨_ | text, cursor, marks, line⟩
  · exact (Int.add_zero _).symm
  · cases hc : text[cursor]? <;>
      simp [perform, read, withText, hc, Reply.ofExcept, Except.map, Step.advance]

theorem cursor_after_nextCode (r : Reader) :
    ((r.perform .nextCode).after.cursor : Int) =
      r.cursor + Step.advance .nextCode (r.perform .nextCode).answer := by
  have hcursor := (delivers_next r).cursor
  simp only [perform, Turn.after_map, Turn.answer_map, Reply.ok, Step.advance,
    Lexical.charCode_eq_endCode_iff, hcursor]
  cases r.next.answer <;> simp

theorem cursor_after_readInto (r : Reader) (dest : List Char) (offset max : Nat) :
    ((r.perform (.readInto dest offset max)).after.cursor : Int) =
      r.cursor + Step.advance (.readInto dest offset max)
        (r.perform (.readInto dest offset max)).answer := by
  rcases r with ⟨_ | text, cursor, marks, line⟩
  · exact (Int.add_zero _).symm
  · simp only [perform, readInto]
    split
    · exact (Int.add_zero _).symm
    split
    · exact (Int.add_zero _).symm
    split
    · exact (Int.add_zero _).symm
    · exact Int.natCast_add _ _

theorem cursor_after_skip (r : Reader) (distance : Int) :
    ((r.perform (.skip distance)).after.cursor : Int) =
      r.cursor + Step.advance (.skip distance) (r.perform (.skip distance)).answer := by
  rcases r with ⟨_ | text, cursor, marks, line⟩
  · exact (Int.add_zero _).symm
  · simp only [perform, skip, withText, Turn.after_map, Turn.answer_map, Reply.ofExcept, Except.map,
      Step.advance]
    omega

/-- What a call reports is how far it went, also at the end of the text, on a refusal and on a closed
reader. -/
theorem cursor_after_perform (r : Reader) {step : Step} (h : step.goesOn = true) :
    ((r.perform step).after.cursor : Int) = r.cursor + step.advance (r.perform step).answer := by
  cases step with
  | read => exact r.cursor_after_read
  | next =>
    have hcursor := (delivers_next r).cursor
    exact (congrArg Nat.cast hcursor).trans (Int.natCast_add _ _)
  | nextCode => exact r.cursor_after_nextCode
  | drain =>
    have hcursor := (delivers_drain r).cursor
    exact (congrArg Nat.cast hcursor).trans (Int.natCast_add _ _)
  | readInto dest offset max => exact r.cursor_after_readInto dest offset max
  | skip distance => exact r.cursor_after_skip distance
  | peek | peekCode =>
    rw [perform, Turn.after_map, after_peek]
    exact (Int.add_zero _).symm
  | ready | look | remainder | snapshot | canMark | position => exact (Int.add_zero _).symm
  | load | clear | close | unread | unreadOne | mark | reset | rewind | release | setLine => cases h

theorem advance_perform_nonneg (r : Reader) {step : Step} (h : step.goesOn = true) :
    0 ≤ step.advance (r.perform step).answer := by
  unfold Step.advance
  split
  · exact Int.natCast_nonneg _
  · exact Int.natCast_nonneg _
  · split <;> decide
  · exact Int.natCast_nonneg _
  · exact Int.natCast_nonneg _
  · rename_i distance moved hanswer
    have hd : 0 ≤ distance := of_decide_eq_true h
    rcases r with ⟨_ | text, cursor, marks, line⟩
    · cases hanswer
    · have hmoved := Value.moved.inj (Except.ok.inj hanswer)
      omega
  · exact Int.le_refl 0

theorem cursor_afterAll (r : Reader) {steps : List Step} (h : ∀ step ∈ steps, step.goesOn = true) :
    ((r.afterAll steps).cursor : Int) = r.cursor + r.advance steps ∧ 0 ≤ r.advance steps := by
  induction steps generalizing r with
  | nil => exact ⟨(Int.add_zero _).symm, Int.le_refl 0⟩
  | cons step steps ih =>
    have hstep := h step List.mem_cons_self
    have hcursor := r.cursor_after_perform hstep
    have hnonneg := r.advance_perform_nonneg hstep
    obtain ⟨hlater, hrest⟩ := ih (r.perform step).after fun s hs => h s (List.mem_cons_of_mem _ hs)
    rw [afterAll_cons, advance]
    omega

/-- Behind calls that go on, a reader is where it was, further by what they report. -/
theorem afterAll_ahead {r : Reader} {text : List Char} (ht : r.text = some text) {steps : List Step}
    (hs : ∀ step ∈ steps, step.goesOn = true) :
    (r.afterAll steps).text = some text ∧ Moved r (r.afterAll steps) ∧
      (r.afterAll steps).cursor = r.cursor + (r.advance steps).toNat := by
  have hmoved := r.moved_afterAll fun step h => Step.onlyMoves_of_goesOn (hs step h)
  obtain ⟨hcursor, hnonneg⟩ := r.cursor_afterAll hs
  exact ⟨hmoved.text.trans ht, hmoved, by omega⟩

theorem Moved.eq_of_cursor {r s : Reader} (h : Moved r s) : { s with cursor := r.cursor } = r := by
  rw [h.same]

section

variable {r s : Reader} {text : List Char} {k : Nat}

theorem unread_back (ht : s.text = some text) (hm : Moved r s) (hk : s.cursor = r.cursor + k) :
    s.unread k = ⟨.ok (), r, [.unread k r.cursor]⟩ := by
  have hback : s.cursor - k = r.cursor := by omega
  rw [unread_of_le ht (by omega), hback, hm.eq_of_cursor]

theorem skip_back (ht : s.text = some text) (hm : Moved r s) (hk : s.cursor = r.cursor + k) :
    s.skip (-k) = ⟨.ok (-k), r, [.skipped (-k) (-k) r.cursor]⟩ := by
  have hahead : min (-(k : Int)).toNat (text.length - s.cursor) = 0 := by omega
  have hback : min (-(-(k : Int))).toNat s.cursor = k := by omega
  have hcursor : s.cursor + 0 - k = r.cursor := by omega
  rw [skip, withText_of_open ht]
  simp only [hahead, hback, hcursor, hm.eq_of_cursor, Int.natCast_zero, Int.zero_sub]

theorem unreadOne_back (ht : s.text = some text) (hm : Moved r s) (hk : s.cursor = r.cursor + k) :
    s.replies (List.replicate k .unreadOne) = List.replicate k (.ok .unit) ∧
      s.afterAll (List.replicate k .unreadOne) = r := by
  induction k generalizing s with
  | zero =>
    have hcursor : r.cursor = s.cursor := hk.symm
    exact ⟨rfl, by rw [List.replicate_zero, afterAll_nil, ← hm.eq_of_cursor, hcursor]⟩
  | succ k ih =>
    have hone : s.unread 1 = _ := unread_of_le ht (by omega)
    have hanswer : (s.perform .unreadOne).answer = .ok .unit := by
      rw [perform, unreadOne, hone]
      rfl
    have hafter : (s.perform .unreadOne).after = { s with cursor := s.cursor - 1 } := by
      rw [perform, unreadOne, hone]
      rfl
    have hmoved : Moved r { s with cursor := s.cursor - 1 } :=
      ⟨by rw [hm.same], fun hr => Nat.le_trans (Nat.sub_le _ _) (hm.within hr),
        fun hn => absurd (hm.text.trans hn) (by simp [ht])⟩
    obtain ⟨hreplies, hback⟩ := ih (s := { s with cursor := s.cursor - 1 }) ht hmoved
      (by simp only; omega)
    rw [List.replicate_succ, replies_cons, afterAll_cons, hanswer, hafter, hreplies, hback]
    exact ⟨rfl, rfl⟩

end

/-- Calls that are all granted behind some others, lead back to where those began, and let them be
made once more. -/
structure LeadsBack (r : Reader) (steps back : List Step) (values : List Value) : Prop where
  granted : (r.afterAll steps).replies back = values.map .ok
  restored : (r.afterAll steps).afterAll back = r
  replies_again : ((r.afterAll steps).afterAll back).replies steps = r.replies steps
  offset_again :
    (((r.afterAll steps).afterAll back).afterAll steps).status.offset =
      (r.afterAll steps).status.offset

namespace LeadsBack

variable {r : Reader} {text : List Char} {steps back : List Step} {values : List Value}

theorem of_restored (hg : (r.afterAll steps).replies back = values.map .ok)
    (hr : (r.afterAll steps).afterAll back = r) : r.LeadsBack steps back values where
  granted := hg
  restored := hr
  replies_again := by rw [hr]
  offset_again := by rw [hr]

theorem of_turn {step : Step} {value : Value} (log : List Event)
    (h : (r.afterAll steps).perform step = ⟨.ok value, r, log⟩) :
    r.LeadsBack steps [step] [value] := by
  refine of_restored ?_ ?_
  · rw [replies_cons, h]
    rfl
  · rw [afterAll_cons, h]
    rfl

theorem unread (ht : r.text = some text) (hs : ∀ step ∈ steps, step.goesOn = true) :
    r.LeadsBack steps [.unread (r.advance steps).toNat] [.unit] := by
  obtain ⟨htext, hmoved, hcursor⟩ := afterAll_ahead ht hs
  refine of_turn [.unread (r.advance steps).toNat r.cursor] ?_
  rw [perform, unread_back htext hmoved hcursor]
  rfl

theorem skip (ht : r.text = some text) (hs : ∀ step ∈ steps, step.goesOn = true) :
    r.LeadsBack steps [.skip (-r.advance steps)] [.moved (-r.advance steps)] := by
  obtain ⟨htext, hmoved, hcursor⟩ := afterAll_ahead ht hs
  have hturn := skip_back htext hmoved hcursor
  rw [Int.toNat_of_nonneg (r.cursor_afterAll hs).2] at hturn
  refine of_turn [.skipped (-r.advance steps) (-r.advance steps) r.cursor] ?_
  rw [perform, hturn]
  rfl

theorem unreadOne (ht : r.text = some text) (hs : ∀ step ∈ steps, step.goesOn = true) :
    r.LeadsBack steps (List.replicate (r.advance steps).toNat .unreadOne)
      (List.replicate (r.advance steps).toNat .unit) := by
  obtain ⟨htext, hmoved, hcursor⟩ := afterAll_ahead ht hs
  obtain ⟨hreplies, hafter⟩ := unreadOne_back htext hmoved hcursor
  refine of_restored ?_ hafter
  rw [hreplies, List.map_replicate]

/-- The mark stays, so behind the way back it is there once more. -/
theorem reset (ht : r.text = some text) (hs : ∀ step ∈ steps, step.goesOn = true)
    (hm : r.marks.target? = some r.cursor) : r.LeadsBack steps [.reset] [.unit] := by
  obtain ⟨htext, hmoved, -⟩ := afterAll_ahead ht hs
  have htarget : (r.afterAll steps).marks.target? = some r.cursor := by rw [hmoved.marks, hm]
  refine of_turn [.reset r.cursor] ?_
  rw [perform, reset_of_target htext htarget, hmoved.eq_of_cursor]
  rfl

end LeadsBack
end Reader

/-- Behind calls that go on, the sum of what they report is the way back, in one step, in a move, one by
one or to a mark; and from there the same calls go the same way again. -/
theorem Reader.ways_back_agree_and_replay (r : Reader) (ho : r.isClosed = false)
    (steps : List Step) (hs : ∀ step ∈ steps, step.goesOn = true) (limit : Int) (hl : 0 ≤ limit) :
    let k := r.advance steps
    let marked := (r.perform (.mark limit)).after
    (0 ≤ k ∧ ((r.afterAll steps).status.offset : Int) = r.status.offset + k) ∧
    r.LeadsBack steps [.unread k.toNat] [.unit] ∧
    r.LeadsBack steps [.skip (-k)] [.moved (-k)] ∧
    r.LeadsBack steps (List.replicate k.toNat .unreadOne) (List.replicate k.toNat .unit) ∧
    ((r.perform (.mark limit)).answer = .ok .unit ∧ Reader.Agree r marked) ∧
    (marked.replies steps = r.replies steps ∧
      Reader.Agree (r.afterAll steps) (marked.afterAll steps)) ∧
    marked.LeadsBack steps [.reset] [.unit] := by
  intro k marked
  obtain ⟨text, ht⟩ := exists_text_of_open ho
  obtain ⟨hcursor, hnonneg⟩ := r.cursor_afterAll hs
  have hmark := mark_of_nonneg ht hl
  have hafter : marked = { r with marks := r.marks.push r.cursor } := congrArg Turn.after hmark
  have hagree : Reader.Agree r marked := by rw [hafter]; exact ⟨rfl, rfl, rfl⟩
  have hanswer : (r.perform (.mark limit)).answer = .ok .unit := by rw [perform, hmark]; rfl
  have htarget : marked.marks.target? = some marked.cursor := by
    rw [hafter]
    exact r.marks.target?_push r.cursor
  -- the mark is not used by the steps, so they do not tell it
  have hsteps := hagree.replies_of_not_usesMark fun step h =>
    Step.usesMark_of_onlyMoves (Step.onlyMoves_of_goesOn (hs step h))
  exact ⟨⟨hnonneg, hcursor⟩, .unread ht hs, .skip ht hs, .unreadOne ht hs, ⟨hanswer, hagree⟩,
    hsteps, .reset (hagree.text.trans ht) hs htarget⟩

/-- A character, a block that comes up short, one that is refused, a look ahead and a move past the
end of the text: four characters in all, on a stack where the new mark pushes out another one. -/
theorem four_characters_back_and_again :
    ((Origin.text ['a', 'b', 'c', 'd', 'e']).reader [.mark 0, .read]).isClosed = false ∧
    (∀ step ∈ [Step.next, .readInto ['-', '-', '-'] 1 2, .readInto ['-'] 1 1, .look, .skip 7],
      step.goesOn = true) ∧
    ((Origin.text ['a', 'b', 'c', 'd', 'e']).reader [.mark 0, .read]).advance
      [.next, .readInto ['-', '-', '-'] 1 2, .readInto ['-'] 1 1, .look, .skip 7] = 4 ∧
    ((Origin.text ['a', 'b', 'c', 'd', 'e']).reader [.mark 0, .read]).LeadsBack
      [.next, .readInto ['-', '-', '-'] 1 2, .readInto ['-'] 1 1, .look, .skip 7]
      [.skip (-4)] [.moved (-4)] ∧
    ((Origin.text ['a', 'b', 'c', 'd', 'e']).reader [.mark 0, .read, .mark 3]).LeadsBack
      [.next, .readInto ['-', '-', '-'] 1 2, .readInto ['-'] 1 1, .look, .skip 7]
      [.reset] [.unit] := by
  have hs : ∀ step ∈ [Step.next, .readInto ['-', '-', '-'] 1 2, .readInto ['-'] 1 1, .look, .skip 7],
      step.goesOn = true := by decide
  have hall := ((Origin.text ['a', 'b', 'c', 'd', 'e']).reader
    [.mark 0, .read]).ways_back_agree_and_replay rfl _ hs 3 (by decide)
  exact ⟨rfl, hs, rfl, hall.2.2.1, hall.2.2.2.2.2.2⟩

end Retrace
