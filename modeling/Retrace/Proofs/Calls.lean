import Retrace.History

/-! What each call does to the parts of a reader, why it is refused, and which parts it does not
look at. Most calls only move the cursor inside the text; every other call has one equation
for the reader that it leaves. -/
namespace Retrace

/-- The calls that change nothing but the cursor, and know nothing of the marks. -/
def Step.onlyMoves : Step → Bool
  | .load _ | .clear | .close | .mark _ | .reset | .rewind | .release | .setLine _ => false
  | _ => true

namespace Reader

/-- The same reader, but for a cursor that does not leave the text. -/
structure Moved (r s : Reader) : Prop where
  same : s = { r with cursor := s.cursor }
  within : r.cursor ≤ r.length → s.cursor ≤ r.length
  closed : r.text = none → s = r

namespace Moved

variable {r s t : Reader}

theorem refl (r : Reader) : Moved r r := ⟨rfl, id, fun _ => rfl⟩

theorem text (h : Moved r s) : s.text = r.text := by rw [h.same]
theorem marks (h : Moved r s) : s.marks = r.marks := by rw [h.same]
theorem line (h : Moved r s) : s.line = r.line := by rw [h.same]
theorem length (h : Moved r s) : s.length = r.length := by rw [Reader.length, Reader.length, h.text]

theorem trans (h : Moved r s) (h' : Moved s t) : Moved r t where
  same := by rw [h'.same, h.text, h.marks, h.line]
  within hr := by simpa only [h.length] using h'.within (by simpa only [h.length] using h.within hr)
  closed ht := by rw [h'.closed (h.text.trans ht), h.closed ht]

theorem of_open {text : List Char} (ht : r.text = some text) {cursor : Nat}
    (hc : r.cursor ≤ text.length → cursor ≤ text.length) : Moved r { r with cursor } where
  same := rfl
  within := by simpa [Reader.length, ht] using hc
  closed hn := by simp [ht] at hn

end Moved

theorem moved_read (r : Reader) : Moved r r.read.after := by
  rcases r with ⟨_ | text, cursor, marks, line⟩
  · exact .refl _
  · simp only [read, withText]
    split
    · rename_i c hc
      have hlt := (List.getElem?_eq_some_iff.1 hc).1
      exact .of_open rfl fun _ => hlt
    · exact .refl _

theorem moved_next (r : Reader) : Moved r r.next.after := by
  have h := moved_read r
  unfold next
  cases ha : r.read.answer <;> simpa [ha] using h

theorem moved_drain (r : Reader) : Moved r r.drain.after := by
  fun_induction drain r with
  | case1 r h => exact moved_next r
  | case2 r c h turn ih => exact (moved_next r).trans ih

theorem moved_readInto (r : Reader) (dest : List Char) (offset max : Nat) :
    Moved r (r.readInto dest offset max).after := by
  rcases r with ⟨_ | text, cursor, marks, line⟩
  · exact .refl _
  · simp only [readInto]
    split
    · exact .refl _
    split
    · exact .refl _
    split
    · exact .refl _
    · refine .of_open rfl fun hr => ?_
      simp only [List.length_take, List.length_drop]
      omega

theorem moved_skip (r : Reader) (distance : Int) : Moved r (r.skip distance).after := by
  rcases r with ⟨_ | text, cursor, marks, line⟩
  · exact .refl _
  · exact .of_open rfl fun hr => by simp only at hr ⊢; omega

theorem moved_unread (r : Reader) (count : Nat) : Moved r (r.unread count).after := by
  rcases r with ⟨_ | text, cursor, marks, line⟩
  · exact .refl _
  · simp only [unread, withText]
    split
    · exact .refl _
    · exact .of_open rfl fun hr => by simp only at hr ⊢; omega

theorem after_peek (r : Reader) : r.peek.after = r := by
  unfold peek
  cases r.look <;> rfl

theorem moved_perform (r : Reader) {step : Step} (h : step.onlyMoves = true) :
    Moved r (r.perform step).after := by
  cases step with
  | read => exact moved_read r
  | readInto dest offset max => exact moved_readInto r dest offset max
  | skip distance => exact moved_skip r distance
  | unread count => exact moved_unread r count
  | unreadOne => exact moved_unread r 1
  | next | nextCode => exact moved_next r
  | drain => exact moved_drain r
  | peek | peekCode => simpa [perform, after_peek] using Moved.refl r
  | ready | look | remainder | snapshot | canMark | position => exact .refl r
  | load | clear | close | mark | reset | rewind | release | setLine => cases h

theorem moved_afterAll (r : Reader) {steps : List Step} (h : ∀ step ∈ steps, step.onlyMoves = true) :
    Moved r (r.afterAll steps) := by
  induction steps generalizing r with
  | nil => exact .refl r
  | cons step steps ih =>
    have hfirst := moved_perform r (h step List.mem_cons_self)
    exact hfirst.trans (ih _ fun s hs => h s (List.mem_cons_of_mem _ hs))

theorem after_perform_of_closed {r : Reader} (ht : r.text = none) (step : Step) :
    (r.perform step).after = match step with
      | .close => { r with marks := r.marks.clear }
      | .setLine line => r.setLine line
      | _ => r := by
  by_cases hm : step.onlyMoves = true
  · rw [(moved_perform r hm).closed ht]
    cases step <;> first | rfl | cases hm
  · rcases r with ⟨_ | text, cursor, marks, line⟩
    · cases step with
      | mark limit => simp only [perform, mark, withText]; split <;> rfl
      | load | clear | close | reset | rewind | release | setLine => rfl
      | _ => exact absurd rfl hm
    · cases ht

theorem after_mark_of_open {r : Reader} {text : List Char} (ht : r.text = some text) (limit : Int) :
    (r.mark limit).after = if limit < 0 then r else { r with marks := r.marks.push r.cursor } := by
  unfold mark
  rw [withText_of_open ht]
  split <;> rfl

theorem after_reset_of_open {r : Reader} {text : List Char} (ht : r.text = some text) :
    r.reset.after = { r with cursor := r.marks.target?.getD r.cursor } := by
  cases hm : r.marks.target? with
  | none => rw [reset_of_lost ht hm]; rfl
  | some cursor => rw [reset_of_target ht hm]; rfl

theorem after_rewind_of_open {r : Reader} {text : List Char} (ht : r.text = some text) :
    r.rewind.after =
      { r with cursor := r.marks.target?.getD r.cursor, marks := r.marks.drop } := by
  cases hm : r.marks.target? with
  | none => rw [rewind_of_lost ht hm]; rfl
  | some cursor => rw [rewind_of_target ht hm]; rfl

theorem after_release_of_open {r : Reader} {text : List Char} (ht : r.text = some text) :
    r.release.after = { r with marks := r.marks.drop } := by
  rw [release, withText_of_open ht]
  cases r.marks.newest <;> rfl

theorem after_perform_of_open {r : Reader} {text : List Char} (ht : r.text = some text)
    {step : Step} (hm : step.onlyMoves = false) :
    (r.perform step).after = match step with
      | .load new => ⟨some new, 0, r.marks.clear, r.line⟩
      | .clear => ⟨some [], 0, r.marks.clear, r.line⟩
      | .close => r.close.after
      | .mark limit => if limit < 0 then r else { r with marks := r.marks.push r.cursor }
      | .reset => { r with cursor := r.marks.target?.getD r.cursor }
      | .rewind => { r with cursor := r.marks.target?.getD r.cursor, marks := r.marks.drop }
      | .release => { r with marks := r.marks.drop }
      | .setLine line => r.setLine line
      | _ => r := by
  cases step with
  | load new => exact after_load (by simp [ht]) new
  | clear => exact r.after_clear.trans (after_load (by simp [ht]) [])
  | close | setLine => rfl
  | mark limit => exact after_mark_of_open ht limit
  | reset => exact after_reset_of_open ht
  | rewind => exact after_rewind_of_open ht
  | release => exact after_release_of_open ht
  | _ => cases hm

/-- The text after a call. -/
def textAfter (r : Reader) : Step → Option (List Char)
  | .load text => r.text.map fun _ => text
  | .clear => r.text.map fun _ => []
  | .close => none
  | _ => r.text

/-- The line after a call: only its owner changes it. -/
def lineAfter (r : Reader) : Step → Nat
  | .setLine line => line
  | _ => r.line

theorem text_and_line_perform (r : Reader) (step : Step) :
    (r.perform step).after.text = r.textAfter step ∧
      (r.perform step).after.line = r.lineAfter step := by
  cases hm : step.onlyMoves with
  | true =>
    have h := moved_perform r hm
    rw [h.text, h.line]
    cases step <;> first | exact ⟨rfl, rfl⟩ | cases hm
  | false =>
    cases ht : r.text with
    | none =>
      rw [after_perform_of_closed ht]
      cases step <;> simp [textAfter, lineAfter, setLine, ht]
    | some text =>
      rw [after_perform_of_open ht hm]
      cases step with
      | mark limit => simp only [textAfter, lineAfter]; split <;> exact ⟨rfl, rfl⟩
      | _ => simp [textAfter, lineAfter, setLine, ht]

theorem text_perform (r : Reader) (step : Step) : (r.perform step).after.text = r.textAfter step :=
  (text_and_line_perform r step).1

theorem line_perform (r : Reader) (step : Step) : (r.perform step).after.line = r.lineAfter step :=
  (text_and_line_perform r step).2

theorem isClosed_perform (r : Reader) (step : Step) :
    (r.perform step).after.isClosed = (decide (step = .close) || r.isClosed) := by
  unfold isClosed
  rw [text_perform]
  cases step <;> simp [textAfter]

theorem isClosed_afterAll (r : Reader) (steps : List Step) :
    (r.afterAll steps).isClosed = (decide (Step.close ∈ steps) || r.isClosed) := by
  induction steps generalizing r with
  | nil => simp
  | cons step steps ih =>
    rw [afterAll_cons, ih, isClosed_perform]
    by_cases hs : step = .close
    · simp [hs]
    · simp [hs, Ne.symm hs]

end Reader

/-- Why a call was refused, if it was. -/
def Reply.fault? (reply : Reply) : Option Fault :=
  match reply.outcome with
  | .ok _ => none
  | .error fault => some fault

namespace Reader

def refusalIfClosed (r : Reader) : Option Fault := if r.isClosed then some .closed else none

def refusalToUnread (r : Reader) (count : Nat) : Option Fault :=
  if r.isClosed then some .closed
  else if r.cursor < count then some (.outOfRange "pushback" count r.cursor) else none

def refusalToGoBack (r : Reader) (call : String) : Option Fault :=
  if r.isClosed then some .closed
  else if r.marks.newest = .lost then some (.markLost call r.marks.depth) else none

/-- Why a call will be refused, if it will. -/
def refusal (r : Reader) : Step → Option Fault
  | .load _ | .clear | .ready | .read | .look | .skip _ | .remainder | .snapshot =>
      r.refusalIfClosed
  | .readInto dest offset max =>
      if r.isClosed then some .closed
      else if dest.length < offset + max then
        some (.outOfRange "read_into" (Count.add offset max) dest.length)
      else none
  | .unread count => r.refusalToUnread count
  | .unreadOne => r.refusalToUnread 1
  | .mark limit =>
      if limit < 0 then some (.badArgument "mark" "read-ahead limit < 0") else r.refusalIfClosed
  | .reset => r.refusalToGoBack "reset"
  | .rewind => r.refusalToGoBack "rewind"
  | .release => r.refusalToGoBack "release_mark"
  | _ => none

theorem fault?_perform (r : Reader) (step : Step) :
    (r.perform step).answer.fault? = r.refusal step := by
  rcases r with ⟨_ | text, cursor, marks, line⟩
  · cases step with
    | mark limit =>
      simp only [perform, mark, withText, refusal]
      split <;> rfl
    | _ => rfl
  · cases step with
    | read =>
      simp only [perform, read, withText]
      split <;> rfl
    | readInto dest offset max =>
      simp only [perform, readInto, refusal]
      split
      · rfl
      split
      · rfl
      split <;> rfl
    | unread count =>
      simp only [perform, unread, withText, refusal, refusalToUnread]
      split <;> rfl
    | unreadOne =>
      simp only [perform, unreadOne, unread, withText, refusal, refusalToUnread]
      split <;> rfl
    | mark limit =>
      simp only [perform, mark, withText, refusal]
      split <;> rfl
    | reset =>
      simp only [perform, reset, withText, refusal, refusalToGoBack, Marks.target?]
      cases marks.newest <;> rfl
    | rewind =>
      simp only [perform, rewind, withText, refusal, refusalToGoBack, Marks.target?]
      cases marks.newest <;> rfl
    | release =>
      simp only [perform, release, withText, refusal, refusalToGoBack]
      cases marks.newest <;> rfl
    | _ => rfl

/-- The calls of a history that were granted. -/
def granted (r : Reader) : List Step → List Step
  | [] => []
  | step :: steps =>
    let turn := r.perform step
    if turn.answer.isRefusal then turn.after.granted steps else step :: turn.after.granted steps

theorem granted_cons (r : Reader) (step : Step) (steps : List Step) :
    r.granted (step :: steps) =
      if (r.perform step).answer.isRefusal then (r.perform step).after.granted steps
      else step :: (r.perform step).after.granted steps := rfl

def relabel (r : Reader) (marks : Marks) (line : Nat) : Reader := { r with marks, line }

theorem read_relabel (r : Reader) (marks : Marks) (line : Nat) :
    (r.relabel marks line).read = r.read.lift (·.relabel marks line) := by
  rcases r with ⟨_ | text, cursor, own, was⟩
  · rfl
  · cases hc : text[cursor]? <;> simp [read, relabel, withText, hc, Turn.lift]

theorem next_relabel (r : Reader) (marks : Marks) (line : Nat) :
    (r.relabel marks line).next = r.next.lift (·.relabel marks line) := by
  unfold next
  rw [read_relabel]
  simp only [Turn.answer_lift, Turn.after_lift, Turn.log_lift]
  cases r.read.answer <;> rfl

theorem drain_relabel (r : Reader) (marks : Marks) (line : Nat) :
    (r.relabel marks line).drain = r.drain.lift (·.relabel marks line) := by
  fun_induction drain r with
  | case1 r h =>
    rw [drain_of_none (by rw [next_relabel]; exact h), next_relabel]
    rfl
  | case2 r c h later ih =>
    rw [drain_of_some (by rw [next_relabel]; exact h), next_relabel]
    simp only [Turn.after_lift, Turn.log_lift, ih]
    rfl

theorem readInto_relabel (r : Reader) (marks : Marks) (line : Nat) (dest : List Char)
    (offset max : Nat) :
    (r.relabel marks line).readInto dest offset max =
      (r.readInto dest offset max).lift (·.relabel marks line) := by
  rcases r with ⟨_ | text, cursor, own, was⟩
  · rfl
  · change readInto ⟨some text, cursor, marks, line⟩ dest offset max = _
    by_cases hfit : dest.length < offset + max
    · simp only [readInto, if_pos hfit]
      rfl
    by_cases hmax : max = 0
    · simp only [readInto, if_neg hfit, if_pos hmax]
      rfl
    by_cases hend : text.length ≤ cursor
    · simp only [readInto, if_neg hfit, if_neg hmax, if_pos hend]
      rfl
    · simp only [readInto, if_neg hfit, if_neg hmax, if_neg hend]
      rfl

theorem unread_relabel (r : Reader) (marks : Marks) (line count : Nat) :
    (r.relabel marks line).unread count = (r.unread count).lift (·.relabel marks line) := by
  rcases r with ⟨_ | text, cursor, own, was⟩
  · rfl
  · change unread ⟨some text, cursor, marks, line⟩ count = _
    by_cases hc : cursor < count
    · simp only [unread, withText, if_pos hc]
      rfl
    · simp only [unread, withText, if_neg hc]
      rfl

theorem skip_relabel (r : Reader) (marks : Marks) (line : Nat) (distance : Int) :
    (r.relabel marks line).skip distance = (r.skip distance).lift (·.relabel marks line) := by
  rcases r with ⟨_ | text, cursor, own, was⟩ <;> rfl

theorem peek_relabel (r : Reader) (marks : Marks) (line : Nat) :
    (r.relabel marks line).peek = r.peek.lift (·.relabel marks line) := by
  rcases r with ⟨_ | text, cursor, own, was⟩ <;> rfl

theorem perform_relabel (r : Reader) (marks : Marks) {line : Nat} {step : Step}
    (h : step.onlyMoves = true) (hl : step = .position → line = r.line) :
    (r.relabel marks line).perform step = (r.perform step).lift (·.relabel marks line) := by
  cases step with
  | read => simp only [perform, read_relabel]; rfl
  | readInto dest offset max => simp only [perform, readInto_relabel]; rfl
  | skip distance => simp only [perform, skip_relabel]; rfl
  | unread count => simp only [perform, unread_relabel]; rfl
  | unreadOne => simp only [perform, unreadOne, unread_relabel]; rfl
  | next | nextCode => simp only [perform, next_relabel]; rfl
  | drain => simp only [perform, drain_relabel]; rfl
  | peek | peekCode => simp only [perform, peek_relabel]; rfl
  | position => rw [hl rfl]; rfl
  | ready | look | remainder | snapshot | canMark => rfl
  | load | clear | close | mark | reset | rewind | release | setLine => cases h

end Reader
end Retrace
