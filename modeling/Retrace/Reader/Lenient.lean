import Retrace.Reader.Reading

/-! The lenient calls, for those who only want characters. A refusal reads as the end of the
text, and leaves a note in the log. -/
namespace Retrace
namespace Reader

/-- The next character, which stays unread. -/
def peek (r : Reader) : Turn Reader (Option Char) :=
  match r.look with
  | .ok c => ⟨c, r, []⟩
  | .error fault => ⟨none, r, [.peekHid fault]⟩

def next (r : Reader) : Turn Reader (Option Char) :=
  let turn := r.read
  match turn.answer with
  | .ok c => ⟨c, turn.after, turn.log⟩
  | .error fault => ⟨none, turn.after, turn.log ++ [.nextHid fault]⟩

theorem next_of_read_ok {r : Reader} {c : Option Char} (h : r.read.answer = .ok c) :
    r.next = ⟨c, r.read.after, r.read.log⟩ := by
  simp [next, h]

theorem next_of_read_error {r : Reader} {fault : Fault} (h : r.read.answer = .error fault) :
    r.next = ⟨none, r.read.after, r.read.log ++ [.nextHid fault]⟩ := by
  simp [next, h]

theorem next_of_closed {r : Reader} (h : r.text = none) :
    r.next = ⟨none, r, [.nextHid .closed]⟩ := by
  simp [next, read, withText_of_closed h]

theorem next_of_rest_nil {r : Reader} {text : List Char} (h : r.text = some text)
    (hr : r.rest = []) : r.next = ⟨none, r, []⟩ := by
  simp [next, read_of_rest_nil h hr]

theorem next_of_rest_cons {r : Reader} {c : Char} {cs : List Char} (hr : r.rest = c :: cs) :
    r.next = ⟨some c, { r with cursor := r.cursor + 1 }, [.read r.cursor c]⟩ := by
  simp [next, read_of_rest_cons hr]

theorem answer_peek (r : Reader) : r.peek.answer = r.rest.head? := by
  cases h : r.text with
  | none => simp [peek, look, contents, h, rest, Except.map]
  | some text => simp [peek, look, contents, h, rest, Except.map]

theorem answer_next (r : Reader) : r.next.answer = r.rest.head? := by
  cases hr : r.rest with
  | nil =>
    cases ht : r.text with
    | none => rw [next_of_closed ht]; rfl
    | some text => rw [next_of_rest_nil ht hr]; rfl
  | cons c cs => rw [next_of_rest_cons hr]; rfl

theorem after_next (r : Reader) :
    r.next.after = if r.rest = [] then r else { r with cursor := r.cursor + 1 } := by
  cases hr : r.rest with
  | nil =>
    rw [if_pos rfl]
    cases ht : r.text with
    | none => rw [next_of_closed ht]
    | some text => rw [next_of_rest_nil ht hr]
  | cons c cs => rw [next_of_rest_cons hr, if_neg (List.cons_ne_nil c cs)]

theorem rest_after_next (r : Reader) : r.next.after.rest = r.rest.tail := by
  cases hr : r.rest with
  | nil => rw [after_next, if_pos hr, hr, List.tail_nil]
  | cons c cs => rw [next_of_rest_cons hr, rest_succ hr, List.tail_cons]

/-- A character that was delivered was the first of the rest, and is no more in it. -/
theorem rest_eq_cons_of_next {r : Reader} {c : Char} (h : r.next.answer = some c) :
    r.rest = c :: r.next.after.rest := by
  cases hr : r.rest with
  | nil =>
    cases ht : r.text with
    | none => simp [next_of_closed ht] at h
    | some text => simp [next_of_rest_nil ht hr] at h
  | cons d cs =>
    rw [next_of_rest_cons hr] at h ⊢
    rw [rest_succ hr]
    cases h
    rfl

/-- All characters to the end. -/
def drain (r : Reader) : Turn Reader (List Char) :=
  match _h : r.next.answer with
  | none => ⟨[], r.next.after, r.next.log⟩
  | some c =>
    let turn := r.next.after.drain
    ⟨c :: turn.answer, turn.after, r.next.log ++ turn.log⟩
termination_by r.rest.length
decreasing_by
  rw [rest_eq_cons_of_next _h]
  exact Nat.lt_succ_self _

theorem drain_of_none {r : Reader} (h : r.next.answer = none) :
    r.drain = ⟨[], r.next.after, r.next.log⟩ := by
  rw [drain]
  split
  · rfl
  · simp_all

theorem drain_of_some {r : Reader} {c : Char} (h : r.next.answer = some c) :
    r.drain = ⟨c :: r.next.after.drain.answer, r.next.after.drain.after,
      r.next.log ++ r.next.after.drain.log⟩ := by
  rw [drain]
  split
  · simp_all
  · next d hd =>
    rw [h] at hd
    cases hd
    rfl

theorem answer_drain (r : Reader) : r.drain.answer = r.rest := by
  fun_induction drain r with
  | case1 r h =>
    cases hr : r.rest with
    | nil => rfl
    | cons c cs => simp [next_of_rest_cons hr] at h
  | case2 r c h turn ih => rw [rest_eq_cons_of_next h, ← ih]

end Reader
end Retrace
