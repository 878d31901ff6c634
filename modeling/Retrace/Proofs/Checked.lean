import Retrace.Proofs.WellFormed

/-! The calls as a machine with words of 64 bits makes them: each sum, each difference, each
range of a text and each copy into a destination is checked, and one that fails stops the
call for good. As long as the text fits in memory, no call of any history is ever stopped,
and what it does is what the reader does. -/
namespace Retrace

/-- Why a call is stopped for good, with no answer at all. -/
inductive Crash where
  | overflow
  | underflow
  | outOfBounds
  deriving DecidableEq, Repr

namespace Checked

/-- The most elements that memory can hold in a row. -/
def longest : Nat := UInt64.size / 2 - 1

def add (a b : Nat) : Except Crash Nat :=
  if a + b ≤ Count.top then .ok (a + b) else .error .overflow

def sub (a b : Nat) : Except Crash Nat := if b ≤ a then .ok (a - b) else .error .underflow

def slice (xs : List Char) (first last : Nat) : Except Crash (List Char) :=
  if first ≤ last ∧ last ≤ xs.length then .ok ((xs.take last).drop first) else .error .outOfBounds

/-- Write a block over the elements from `first` up to `last`, which must be as many. -/
def paste (dest : List Char) (first last : Nat) (block : List Char) : Except Crash (List Char) :=
  if first ≤ last ∧ last ≤ dest.length ∧ block.length = last - first then
    .ok (dest.take first ++ block ++ dest.drop last)
  else .error .outOfBounds

/-- A count as a signed number. A count too large for one becomes the largest. -/
def signed (n : Nat) : Int := if n ≤ longest then n else longest

def read (r : Reader) : Except Crash (Turn Reader (Except Fault (Option Char))) :=
  match r.text with
  | none => .ok (r.refuse .closed)
  | some text =>
    match text[r.cursor]? with
    | some c => do
      let cursor ← add r.cursor 1
      return ⟨.ok (some c), { r with cursor }, [.read r.cursor c]⟩
    | none => .ok ⟨.ok none, r, []⟩

def readInto (r : Reader) (dest : List Char) (offset max : Nat) :
    Except Crash (Turn Reader (Except Fault (Option Nat) × List Char)) :=
  match r.text with
  | none => .ok ⟨(.error .closed, dest), r, []⟩
  | some text =>
    let fits := (add offset max).toOption.any fun last => last ≤ dest.length
    if !fits then
      .ok ⟨(.error (.outOfRange "read_into" (Count.add offset max) dest.length), dest), r, []⟩
    else if max = 0 then .ok ⟨(.ok (some 0), dest), r, []⟩
    else if text.length ≤ r.cursor then .ok ⟨(.ok none, dest), r, []⟩
    else do
      let left ← sub text.length r.cursor
      let count := min left max
      let block ← slice text r.cursor (← add r.cursor count)
      let pasted ← paste dest offset (← add offset count) block
      let cursor ← add r.cursor count
      return ⟨(.ok (some count), pasted), { r with cursor }, [.readInto r.cursor count]⟩

def skip (r : Reader) (distance : Int) : Except Crash (Turn Reader (Except Fault Int)) :=
  match r.text with
  | none => .ok (r.refuse .closed)
  | some text =>
    if 0 ≤ distance then do
      let stride := min distance.natAbs (← sub text.length r.cursor)
      let cursor ← add r.cursor stride
      return ⟨.ok (signed stride), { r with cursor }, [.skipped distance (signed stride) cursor]⟩
    else do
      let stride := min distance.natAbs r.cursor
      let cursor ← sub r.cursor stride
      return ⟨.ok (-signed stride), { r with cursor }, [.skipped distance (-signed stride) cursor]⟩

def remainder (r : Reader) : Except Crash (Except Fault (List Char)) :=
  match r.text with
  | none => .ok (.error .closed)
  | some text => (slice text r.cursor text.length).map .ok

def unread (r : Reader) (count : Nat) : Except Crash (Turn Reader (Except Fault Unit)) :=
  match r.text with
  | none => .ok (r.refuse .closed)
  | some _ =>
    if r.cursor < count then .ok (r.refuse (.outOfRange "pushback" count r.cursor))
    else do
      let cursor ← sub r.cursor count
      return ⟨.ok (), { r with cursor }, [.unread count cursor]⟩

def dropMark (m : Marks) : Except Crash Marks :=
  match m.held with
  | _ :: older => .ok { m with held := older }
  | [] => if m.lost = 0 then .ok m else do return { m with lost := ← sub m.lost 1 }

def rewind (r : Reader) : Except Crash (Turn Reader (Except Fault Unit)) :=
  match r.text with
  | none => .ok (r.refuse .closed)
  | some _ => do
    let marks ← dropMark r.marks
    match r.marks.target? with
    | some cursor => return ⟨.ok (), { r with cursor, marks }, [.rewound cursor marks.held.length]⟩
    | none => return ⟨.error (.markLost "rewind" r.marks.depth), { r with marks }, []⟩

def release (r : Reader) : Except Crash (Turn Reader (Except Fault (Option Nat))) :=
  match r.text with
  | none => .ok (r.refuse .closed)
  | some _ => do
    let after := { r with marks := ← dropMark r.marks }
    match r.marks.newest with
    | .known cursor => return ⟨.ok (some cursor), after, []⟩
    | .absent => return ⟨.ok none, after, []⟩
    | .lost => return ⟨.error (.markLost "release_mark" r.marks.depth), after, []⟩

def next (r : Reader) : Except Crash (Turn Reader (Option Char)) := do
  let turn ← read r
  match turn.answer with
  | .ok c => return ⟨c, turn.after, turn.log⟩
  | .error fault => return ⟨none, turn.after, turn.log ++ [.nextHid fault]⟩

@[simp] theorem ok_bind {α β : Type} (a : α) (f : α → Except Crash β) : (.ok a >>= f) = f a := rfl
@[simp] theorem error_bind {α β : Type} (crash : Crash) (f : α → Except Crash β) :
    (.error crash >>= f) = .error crash := rfl

/-! A checked sum that is not stopped is the sum, so a read that is not stopped is the read. -/

theorem eq_of_add_ok {a b c : Nat} (h : add a b = .ok c) : c = a + b := by
  unfold add at h
  split at h
  · cases h; rfl
  · cases h

theorem eq_of_read_ok {r : Reader} {turn : Turn Reader (Except Fault (Option Char))}
    (h : read r = .ok turn) : turn = r.read := by
  rcases r with ⟨_ | text, cursor, marks, line⟩
  · cases h; rfl
  · cases hc : text[cursor]? with
    | none =>
      simp only [read, hc] at h
      cases h
      simp [Reader.read, Reader.withText, hc]
    | some c =>
      simp only [read, hc] at h
      cases ha : add cursor 1 with
      | error crash => rw [ha] at h; cases h
      | ok after =>
        simp only [ha, ok_bind] at h
        cases h
        simp [Reader.read, Reader.withText, hc, eq_of_add_ok ha]

theorem eq_of_next_ok {r : Reader} {turn : Turn Reader (Option Char)} (h : next r = .ok turn) :
    turn = r.next := by
  unfold next at h
  cases hr : read r with
  | error crash => simp [hr] at h
  | ok inner =>
    simp only [hr, ok_bind, eq_of_read_ok hr] at h
    simp only [Reader.next]
    cases ha : r.read.answer <;> rw [ha] at h <;> cases h <;> rfl

def drain (r : Reader) : Except Crash (Turn Reader (List Char)) :=
  match _h : next r with
  | .error crash => .error crash
  | .ok turn =>
    match _hc : turn.answer with
    | none => .ok ⟨[], turn.after, turn.log⟩
    | some c =>
      (drain turn.after).map fun later => ⟨c :: later.answer, later.after, turn.log ++ later.log⟩
termination_by r.rest.length
decreasing_by
  rw [eq_of_next_ok _h] at _hc ⊢
  rw [Reader.rest_eq_cons_of_next _hc]
  exact Nat.lt_succ_self _

/-- Every call with its checks. The calls that are not listed compute nothing that could fail. -/
def perform (r : Reader) : Step → Except Crash (Turn Reader Reply)
  | .read => (read r).map (·.map (.ofExcept .char))
  | .readInto dest offset max =>
      (readInto r dest offset max).map (·.map fun answer =>
        { outcome := answer.1.map .count, dest := some answer.2 })
  | .skip distance => (skip r distance).map (·.map (.ofExcept .moved))
  | .remainder => (remainder r).map fun answer => r.tell (.ofExcept .text answer)
  | .unread count => (unread r count).map (·.map (.ofExcept fun _ => .unit))
  | .unreadOne => (unread r 1).map (·.map (.ofExcept fun _ => .unit))
  | .rewind => (rewind r).map (·.map (.ofExcept fun _ => .unit))
  | .release => (release r).map (·.map (.ofExcept .count))
  | .next => (next r).map (·.map fun c => .ok (.char c))
  | .nextCode => (next r).map (·.map fun c => .ok (.code (Lexical.charCode c)))
  | .drain => (drain r).map (·.map fun cs => .ok (.text cs))
  | step => .ok (r.perform step)

theorem add_ok {a b : Nat} (h : a + b ≤ Count.top) : add a b = .ok (a + b) := if_pos h

theorem sub_ok {a b : Nat} (h : b ≤ a) : sub a b = .ok (a - b) := if_pos h

theorem slice_ok {xs : List Char} {first last : Nat} (h : first ≤ last) (hl : last ≤ xs.length) :
    slice xs first last = .ok ((xs.take last).drop first) := if_pos ⟨h, hl⟩

theorem paste_ok {dest block : List Char} {first last : Nat} (h : first ≤ last)
    (hl : last ≤ dest.length) (hb : block.length = last - first) :
    paste dest first last block = .ok (dest.take first ++ block ++ dest.drop last) :=
  if_pos ⟨h, hl, hb⟩

theorem longest_lt_top : longest < Count.top := by decide

theorem signed_of_le {n : Nat} (h : n ≤ longest) : signed n = n := if_pos h

def Fits : Step → Prop
  | .readInto dest _ _ => dest.length ≤ longest
  | _ => True

/-- What a reader and its text must be like for no call to be stopped. -/
structure Safe (r : Reader) : Prop where
  wellFormed : r.WellFormed
  fits : r.length ≤ longest

variable {r : Reader}

theorem Safe.bounds {text : List Char} {cursor line : Nat} {marks : Marks}
    (h : Safe ⟨some text, cursor, marks, line⟩) : cursor ≤ text.length ∧ text.length ≤ longest :=
  ⟨h.wellFormed.cursor_le (by simp), h.fits⟩

theorem read_ok (h : Safe r) : read r = .ok r.read := by
  have hl := h.fits
  have ht := longest_lt_top
  rcases r with ⟨_ | text, cursor, marks, line⟩
  · rfl
  · cases hc : text[cursor]? with
    | none => simp [read, Reader.read, Reader.withText, hc]
    | some c =>
      have hlt := (List.getElem?_eq_some_iff.1 hc).1
      have hfit : cursor + 1 ≤ Count.top := by
        simp only [Reader.length, Option.getD_some] at hl
        omega
      simp only [read, Reader.read, Reader.withText, hc, add_ok hfit, ok_bind]
      rfl

theorem next_ok (h : Safe r) : next r = .ok r.next := by
  simp only [next, read_ok h, ok_bind, Reader.next]
  cases r.read.answer <;> rfl

theorem Safe.moved {s : Reader} (h : Safe r) (hm : r.Moved s) : Safe s :=
  ⟨hm.wellFormed h.wellFormed, hm.length ▸ h.fits⟩

theorem drain_ok (h : Safe r) : drain r = .ok r.drain := by
  fun_induction Reader.drain r with
  | case1 r hn =>
    rw [drain]
    split
    · rename_i crash hx
      simp [next_ok h] at hx
    · rename_i turn hx
      obtain rfl := eq_of_next_ok hx
      split
      · rfl
      · simp_all
  | case2 r c hn later ih =>
    have hs := h.moved r.moved_next
    rw [drain]
    split
    · rename_i crash hx
      simp [next_ok h] at hx
    · rename_i turn hx
      obtain rfl := eq_of_next_ok hx
      split
      · simp_all
      · rename_i d hd
        rw [hn] at hd
        cases hd
        rw [ih hs]
        rfl

theorem readInto_ok (h : Safe r) {dest : List Char} (hd : dest.length ≤ longest)
    (offset max : Nat) : readInto r dest offset max = .ok (r.readInto dest offset max) := by
  have ht := longest_lt_top
  rcases r with ⟨_ | text, cursor, marks, line⟩
  · rfl
  obtain ⟨hc, hl⟩ := h.bounds
  by_cases hfit : offset + max ≤ dest.length
  · have ha : add offset max = .ok (offset + max) := add_ok (by omega)
    have hcount : min (text.length - cursor) max = ((text.drop cursor).take max).length := by
      rw [List.length_take, List.length_drop, Nat.min_comm]
    have hblock : (text.take (cursor + min (text.length - cursor) max)).drop cursor =
        (text.drop cursor).take max := by
      rw [List.drop_take, Nat.add_sub_cancel_left, List.take_eq_take_iff, List.length_drop]
      omega
    simp only [readInto, Reader.readInto, ha, Nat.not_lt.2 hfit, Except.toOption, Option.any_some,
      hfit, decide_true, Bool.not_true, Bool.false_eq_true, if_false]
    split
    · rfl
    split
    · rfl
    · rw [sub_ok hc, ok_bind, add_ok (by omega), ok_bind, slice_ok (by omega) (by omega), ok_bind,
        add_ok (by omega), ok_bind, hblock, paste_ok (by omega) (by omega) (by omega), ok_bind,
        hcount]
      rfl
  · have ha : ((add offset max).toOption.any fun last => decide (last ≤ dest.length)) = false := by
      unfold add
      split
      · simpa [Except.toOption] using hfit
      · rfl
    simp only [readInto, Reader.readInto, ha, Nat.not_le.1 hfit, Bool.not_false, if_true]

theorem skip_ok (h : Safe r) (distance : Int) : skip r distance = .ok (r.skip distance) := by
  have ht := longest_lt_top
  rcases r with ⟨_ | text, cursor, marks, line⟩
  · rfl
  obtain ⟨hc, hl⟩ := h.bounds
  simp only [skip, Reader.skip, Reader.withText]
  by_cases hd : 0 ≤ distance
  · have hn : distance.natAbs = distance.toNat := by omega
    have hback : min (-distance).toNat cursor = 0 := by omega
    rw [if_pos hd, sub_ok hc, ok_bind, add_ok (by omega), ok_bind, signed_of_le (by omega), hn,
      hback, Nat.sub_zero, Int.natCast_zero, Int.sub_zero]
    rfl
  · have hn : distance.natAbs = (-distance).toNat := by omega
    have hahead : min distance.toNat (text.length - cursor) = 0 := by omega
    rw [if_neg hd, sub_ok (by omega), ok_bind, signed_of_le (by omega), hn, hahead, Nat.add_zero,
      Int.natCast_zero, Int.zero_sub]
    rfl

theorem remainder_ok (h : Safe r) : remainder r = .ok r.remainder := by
  rcases r with ⟨_ | text, cursor, marks, line⟩
  · rfl
  · simp only [remainder]
    rw [slice_ok h.bounds.1 (Nat.le_refl _), List.take_length]
    rfl

theorem unread_ok (r : Reader) (count : Nat) : unread r count = .ok (r.unread count) := by
  rcases r with ⟨_ | text, cursor, marks, line⟩
  · rfl
  · simp only [unread, Reader.unread, Reader.withText]
    split
    · rfl
    · rw [sub_ok (by omega)]
      rfl

theorem dropMark_ok (m : Marks) : dropMark m = .ok m.drop := by
  rcases m with ⟨depth, held, lost⟩
  cases held with
  | cons cursor older => rfl
  | nil =>
    simp only [dropMark, Marks.drop]
    split
    · simp_all
    · rw [sub_ok (by omega)]
      rfl

theorem rewind_ok (r : Reader) : rewind r = .ok r.rewind := by
  rcases r with ⟨_ | text, cursor, marks, line⟩
  · rfl
  · simp only [rewind, Reader.rewind, Reader.withText, dropMark_ok, ok_bind]
    cases marks.target? <;> rfl

theorem release_ok (r : Reader) : release r = .ok r.release := by
  rcases r with ⟨_ | text, cursor, marks, line⟩
  · rfl
  · simp only [release, Reader.release, Reader.withText, dropMark_ok, ok_bind]
    cases marks.newest <;> rfl

theorem perform_ok (h : Safe r) {step : Step} (hd : Fits step) :
    perform r step = .ok (r.perform step) := by
  cases step with
  | read => rw [perform, read_ok h]; rfl
  | readInto dest offset max => rw [perform, readInto_ok h hd]; rfl
  | skip distance => rw [perform, skip_ok h]; rfl
  | remainder => rw [perform, remainder_ok h]; rfl
  | unread count => rw [perform, unread_ok]; rfl
  | unreadOne => rw [perform, unread_ok]; rfl
  | rewind => rw [perform, rewind_ok]; rfl
  | release => rw [perform, release_ok]; rfl
  | next | nextCode => rw [perform, next_ok h]; rfl
  | drain => rw [perform, drain_ok h]; rfl
  | _ => rfl

end Checked

/-- Every history keeps the invariant, and a call after it passes all checks. -/
theorem Origin.wellFormed_and_never_stopped (origin : Origin) (steps : List Step) :
    (origin.reader steps).WellFormed ∧
    (origin.reader steps).status.markDepth = max 1 origin.settings.markDepth ∧
    ((origin.reader steps).length ≤ Checked.longest → ∀ step, Checked.Fits step →
      Checked.perform (origin.reader steps) step = .ok ((origin.reader steps).perform step)) ∧
    ∀ text, (origin.reader steps).text = some text →
      (origin.reader steps).reset.after.status.offset ≤ text.length ∧
      (origin.reader steps).rewind.after.status.offset ≤ text.length := by
  have hw := origin.wellFormed_reader steps
  refine ⟨hw, ?_, fun hl step hd => Checked.perform_ok ⟨hw, hl⟩ hd, fun text ht => ?_⟩
  · rw [Reader.status_markDepth, origin.depth_reader, Origin.depth, Settings.effectiveDepth, Nat.max_comm]
  · have hback := hw.target_le ht
    rw [Reader.length, ht, Option.getD_some] at hback
    rw [Reader.after_reset_of_open ht, Reader.after_rewind_of_open ht]
    exact ⟨hback, hback⟩

/-- A block read that reaches the end of both the text and the destination. -/
theorem readInto_never_stopped :
    Checked.perform ((Origin.text ['a', 'b', 'c']).reader [.skip 5, .mark 0, .unread 2])
        (.readInto ['x', 'y', 'z'] 1 2) =
      .ok ⟨{ outcome := .ok (.count (some 2)), dest := some ['x', 'b', 'c'] },
        ⟨some ['a', 'b', 'c'], 3, { depth := 1, held := [3] }, 0⟩, [.readInto 1 2]⟩ :=
  ((Origin.text ['a', 'b', 'c']).wellFormed_and_never_stopped
    [.skip 5, .mark 0, .unread 2]).2.2.1 (by decide) (.readInto ['x', 'y', 'z'] 1 2)
    (show 3 ≤ Checked.longest by decide)

end Retrace
