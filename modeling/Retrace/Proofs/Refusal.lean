import Retrace.Proofs.Checked

/-! When a call is refused, why, and what it leaves behind: all as it was, but for the lost mark
that two of the ways back take off even then. -/
namespace Retrace
namespace Step

def needsText : Step → Bool
  | .mark limit => decide (0 ≤ limit)
  | .close | .canMark | .setLine _ | .position | .peek | .next | .peekCode | .nextCode
  | .drain => false
  | _ => true

/-- The name that a way back to the newest mark gives in its refusal. -/
def wayBack? : Step → Option String
  | .reset => some "reset"
  | .rewind => some "rewind"
  | .release => some "release_mark"
  | _ => none

def dest? : Step → Option (List Char)
  | .readInto dest _ _ => some dest
  | _ => none

end Step

namespace Reader

/-- A reader refuses a call with a fault. A limit below zero is refused before anything else is
looked at, and a closed reader before any other argument. -/
inductive Refuses (r : Reader) : Step → Fault → Prop where
  | negativeLimit {limit : Int} (hl : limit < 0) :
      Refuses r (.mark limit) (.badArgument "mark" "read-ahead limit < 0")
  | closed {step : Step} (hs : step.needsText = true) (hc : r.isClosed = true) :
      Refuses r step .closed
  | tooShort {dest : List Char} {offset max : Nat} (ho : r.isClosed = false)
      (hd : dest.length < offset + max) :
      Refuses r (.readInto dest offset max)
        (.outOfRange "read_into" (min (offset + max) Count.top) dest.length)
  | beforeStart {count : Nat} (ho : r.isClosed = false) (hn : r.cursor < count) :
      Refuses r (.unread count) (.outOfRange "pushback" count r.cursor)
  | beforeStartOne (ho : r.isClosed = false) (hn : r.cursor < 1) :
      Refuses r .unreadOne (.outOfRange "pushback" 1 r.cursor)
  | lostMark {step : Step} {call : String} (ho : r.isClosed = false)
      (hs : step.wayBack? = some call) (hm : r.marks.held = [] ∧ 0 < r.marks.lost) :
      Refuses r step (.markLost call r.marks.depth)

variable {r : Reader} {step : Step} {fault : Fault}

theorem refusalIfClosed_eq_some_iff :
    r.refusalIfClosed = some fault ↔ fault = .closed ∧ r.isClosed = true := by
  cases hc : r.isClosed <;> simp [refusalIfClosed, hc, eq_comm]

theorem refusalToUnread_eq_some_iff {count : Nat} :
    r.refusalToUnread count = some fault ↔
      fault = .closed ∧ r.isClosed = true ∨
      fault = .outOfRange "pushback" count r.cursor ∧ r.isClosed = false ∧ r.cursor < count := by
  cases hc : r.isClosed with
  | true => simp [refusalToUnread, hc, eq_comm]
  | false => by_cases hn : r.cursor < count <;> simp [refusalToUnread, hc, hn, eq_comm]

theorem refusalToGoBack_eq_some_iff {call : String} :
    r.refusalToGoBack call = some fault ↔
      fault = .closed ∧ r.isClosed = true ∨
      fault = .markLost call r.marks.depth ∧ r.isClosed = false ∧
        r.marks.held = [] ∧ 0 < r.marks.lost := by
  rw [← Marks.newest_eq_lost_iff]
  cases hc : r.isClosed with
  | true => simp [refusalToGoBack, hc, eq_comm]
  | false =>
    by_cases hm : r.marks.newest = .lost <;> simp [refusalToGoBack, hc, hm, eq_comm]

theorem refuses_of_refusal (h : r.refusal step = some fault) : r.Refuses step fault := by
  cases step with
  | load | clear | ready | read | look | skip | remainder | snapshot =>
    obtain ⟨rfl, hc⟩ := refusalIfClosed_eq_some_iff.1 h
    exact .closed rfl hc
  | readInto dest offset max =>
    simp only [refusal] at h
    split at h
    · rename_i hc
      cases h
      exact .closed rfl hc
    split at h
    · rename_i hc hd
      cases h
      exact .tooShort (Bool.eq_false_iff.2 hc) hd
    · cases h
  | unread count =>
    rcases refusalToUnread_eq_some_iff.1 h with ⟨rfl, hc⟩ | ⟨rfl, ho, hn⟩
    · exact .closed rfl hc
    · exact .beforeStart ho hn
  | unreadOne =>
    rcases refusalToUnread_eq_some_iff.1 h with ⟨rfl, hc⟩ | ⟨rfl, ho, hn⟩
    · exact .closed rfl hc
    · exact .beforeStartOne ho hn
  | mark limit =>
    simp only [refusal] at h
    split at h
    · rename_i hl
      cases h
      exact .negativeLimit hl
    · rename_i hl
      obtain ⟨rfl, hc⟩ := refusalIfClosed_eq_some_iff.1 h
      exact .closed (decide_eq_true (Int.not_lt.1 hl)) hc
  | reset | rewind | release =>
    rcases refusalToGoBack_eq_some_iff.1 h with ⟨rfl, hc⟩ | ⟨rfl, ho, hm⟩
    · exact .closed rfl hc
    · exact .lostMark ho rfl hm
  | close | canMark | setLine | position | peek | next | peekCode | nextCode | drain => cases h

theorem refusal_of_refuses (h : r.Refuses step fault) : r.refusal step = some fault := by
  cases h with
  | negativeLimit hl => exact if_pos hl
  | closed hs hc =>
    cases step with
    | readInto => exact if_pos hc
    | unread | unreadOne => exact refusalToUnread_eq_some_iff.2 (.inl ⟨rfl, hc⟩)
    | mark limit =>
      have hl : ¬ limit < 0 := Int.not_lt.2 (of_decide_eq_true hs)
      exact (if_neg hl).trans (refusalIfClosed_eq_some_iff.2 ⟨rfl, hc⟩)
    | reset | rewind | release => exact refusalToGoBack_eq_some_iff.2 (.inl ⟨rfl, hc⟩)
    | close | canMark | setLine | position | peek | next | peekCode | nextCode | drain => cases hs
    | _ => exact refusalIfClosed_eq_some_iff.2 ⟨rfl, hc⟩
  | tooShort ho hd => simp [refusal, ho, hd, Count.add]
  | beforeStart ho hn => exact refusalToUnread_eq_some_iff.2 (.inr ⟨rfl, ho, hn⟩)
  | beforeStartOne ho hn => exact refusalToUnread_eq_some_iff.2 (.inr ⟨rfl, ho, hn⟩)
  | lostMark ho hs hm =>
    cases step with
    | reset | rewind | release =>
      cases hs
      exact refusalToGoBack_eq_some_iff.2 (.inr ⟨rfl, ho, hm⟩)
    | _ => cases hs

theorem error_iff_refuses (r : Reader) (step : Step) (fault : Fault) :
    (r.perform step).answer.outcome = .error fault ↔ r.Refuses step fault := by
  have hfault : (r.perform step).answer.outcome = .error fault ↔
      (r.perform step).answer.fault? = some fault := by
    unfold Reply.fault?
    cases (r.perform step).answer.outcome <;> simp
  rw [hfault, fault?_perform]
  exact ⟨refuses_of_refusal, refusal_of_refuses⟩

/-- The reader that a refused call leaves. A mark that was lost is taken off all the same, by the
calls that take marks off. -/
def afterRefusal (r : Reader) : Step → Reader
  | .rewind | .release =>
      if r.isClosed then r else { r with marks := { r.marks with lost := r.marks.lost - 1 } }
  | _ => r

/-- A refused call logs nothing, hands its destination back as it was, and moves nothing. -/
structure LeavesAll (r : Reader) (step : Step) : Prop where
  log : (r.perform step).log = []
  dest : (r.perform step).answer.dest = step.dest?
  after : (r.perform step).after = r.afterRefusal step

theorem leavesAll_of_closed (hs : step.needsText = true) (hc : r.isClosed = true) :
    r.LeavesAll step := by
  rcases r with ⟨_ | text, cursor, marks, line⟩
  · cases step with
    | mark limit =>
      have hl : ¬ limit < 0 := Int.not_lt.2 (of_decide_eq_true hs)
      refine ⟨?_, rfl, ?_⟩ <;> simp [perform, mark, withText, hl, afterRefusal]
    | close | canMark | setLine | position | peek | next | peekCode | nextCode | drain => cases hs
    | _ => exact ⟨rfl, rfl, rfl⟩
  · cases hc

theorem leavesAll_of_lostMark {call : String} (ho : r.isClosed = false)
    (hs : step.wayBack? = some call) (hm : r.marks.held = [] ∧ 0 < r.marks.lost) :
    r.LeavesAll step := by
  obtain ⟨text, ht⟩ := exists_text_of_open ho
  have hlost := Marks.newest_eq_lost_iff.2 hm
  have htarget := Marks.target?_eq_none_iff.2 hlost
  have hdrop : r.marks.drop = { r.marks with lost := r.marks.lost - 1 } := by
    simp [Marks.drop, hm.1]
  cases step with
  | reset =>
    have hturn := reset_of_lost ht htarget
    refine ⟨?_, rfl, ?_⟩ <;> simp [perform, hturn, afterRefusal]
  | rewind =>
    have hturn := rewind_of_lost ht htarget
    refine ⟨?_, rfl, ?_⟩ <;> simp [perform, hturn, afterRefusal, hdrop, ho]
  | release =>
    refine ⟨?_, rfl, ?_⟩ <;>
      simp [perform, release, withText_of_open ht, hlost, afterRefusal, hdrop, ho]
  | _ => cases hs

theorem leavesAll_of_refuses (h : r.Refuses step fault) : r.LeavesAll step := by
  cases h with
  | negativeLimit hl => refine ⟨?_, rfl, ?_⟩ <;> simp [perform, mark, hl, afterRefusal]
  | closed hs hc => exact leavesAll_of_closed hs hc
  | tooShort ho hd =>
    obtain ⟨text, ht⟩ := exists_text_of_open ho
    refine ⟨?_, ?_, ?_⟩ <;> simp [perform, readInto, ht, hd, afterRefusal, Step.dest?]
  | beforeStart ho hn =>
    obtain ⟨text, ht⟩ := exists_text_of_open ho
    refine ⟨?_, rfl, ?_⟩ <;> simp [perform, unread, withText_of_open ht, hn, afterRefusal]
  | beforeStartOne ho hn =>
    obtain ⟨text, ht⟩ := exists_text_of_open ho
    refine ⟨?_, rfl, ?_⟩ <;> simp [perform, unreadOne, unread, withText_of_open ht, hn, afterRefusal]
  | lostMark ho hs hm => exact leavesAll_of_lostMark ho hs hm

theorem limit_lt_of_outOfRange {call : String} {index limit : Nat}
    (h : r.Refuses step (.outOfRange call index limit)) (hd : Checked.Fits step) :
    limit < index := by
  cases h with
  | tooShort ho hlen =>
    have hfits : _ ≤ Checked.longest := hd
    have htop := Checked.longest_lt_top
    omega
  | beforeStart ho hn => exact hn
  | beforeStartOne ho hn => exact hn

end Reader

/-- The calls that are refused, each with the one fault that it is refused with, and what a refusal
leaves. -/
theorem Reader.refused_exactly_and_left_whole (r : Reader) (step : Step) :
    (∀ fault, (r.perform step).answer.outcome = .error fault ↔ r.Refuses step fault) ∧
    (∀ call index limit, (r.perform step).answer.outcome = .error (.outOfRange call index limit) →
      Checked.Fits step → limit < index) ∧
    ((r.perform step).answer.isRefusal = true → r.LeavesAll step) := by
  refine ⟨r.error_iff_refuses step, fun call index limit h hd => ?_, fun h => ?_⟩
  · exact limit_lt_of_outOfRange ((r.error_iff_refuses step _).1 h) hd
  · cases ho : (r.perform step).answer.outcome with
    | ok => simp [Reply.isRefusal, ho] at h
    | error fault => exact leavesAll_of_refuses ((r.error_iff_refuses step fault).1 ho)

/-- A block read past the end of its destination, and a way back to a mark that was lost: the
latter is off the stack after the refusal. -/
theorem refused_read_and_way_back :
    ((((Origin.text ['a', 'b']).reader [.mark 0, .read, .mark 0, .rewind]).perform
        (.readInto ['x', 'y'] 1 5)).answer.outcome = .error (.outOfRange "read_into" 6 2) ∧ 2 < 6) ∧
    (((Origin.text ['a', 'b']).reader [.mark 0, .read, .mark 0, .rewind]).perform
        .rewind).answer.isRefusal = true ∧
    ((Origin.text ['a', 'b']).reader [.mark 0, .read, .mark 0, .rewind]).LeavesAll .rewind ∧
    ((Origin.text ['a', 'b']).reader [.mark 0, .read, .mark 0, .rewind]).afterRefusal .rewind =
      ⟨some ['a', 'b'], 1, { depth := 1 }, 0⟩ := by
  have hread := ((Origin.text ['a', 'b']).reader
    [.mark 0, .read, .mark 0, .rewind]).refused_exactly_and_left_whole (.readInto ['x', 'y'] 1 5)
  have hback := ((Origin.text ['a', 'b']).reader
    [.mark 0, .read, .mark 0, .rewind]).refused_exactly_and_left_whole .rewind
  have htold := (hread.1 (.outOfRange "read_into" 6 2)).2 (.tooShort rfl (by decide))
  exact ⟨⟨htold, hread.2.1 _ _ _ htold (show 2 ≤ Checked.longest by decide)⟩, rfl,
    hback.2.2 rfl, rfl⟩

end Retrace
