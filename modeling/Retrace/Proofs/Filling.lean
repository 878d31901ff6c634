import Retrace.Proofs.WellFormed

/-! Filling a destination. A block of characters leaves what is left by reading one character at a
time into the same places, and a block that comes whole, with another one behind it, is one longer
block. -/
namespace Retrace
namespace Reader

/-- What is left by reading one character at a time into a destination. -/
structure Filling where
  count : Nat := 0
  dest : List Char
  after : Reader

/-- Read at most so many characters, and none behind the first time that there is none. Each one
takes the place of a character of the destination, the first one at the index. -/
def fill (r : Reader) (dest : List Char) (index : Nat) : Nat → Filling
  | 0 => { dest, after := r }
  | max + 1 =>
    match r.read.answer with
    | .ok (some c) =>
      let later := r.read.after.fill (dest.set index c) (index + 1) max
      { later with count := later.count + 1 }
    | _ => { dest, after := r.read.after }

@[simp] theorem overlay_nil (dest : List Char) (offset : Nat) : overlay dest offset [] = dest := by
  simp [overlay]

theorem overlay_singleton {dest : List Char} {index : Nat} (h : index < dest.length) (c : Char) :
    overlay dest index [c] = dest.set index c := by
  rw [overlay, List.set_eq_take_append_cons_drop, if_pos h, List.append_assoc]
  rfl

theorem overlay_overlay {dest xs : List Char} {offset : Nat} (h : offset + xs.length ≤ dest.length)
    (ys : List Char) :
    overlay (overlay dest offset xs) (offset + xs.length) ys = overlay dest offset (xs ++ ys) := by
  have hfront : (dest.take offset ++ xs).length = offset + xs.length := by
    rw [List.length_append, List.length_take, Nat.min_eq_left (by omega)]
  have hback : (dest.drop (offset + xs.length)).drop ys.length =
      dest.drop (offset + (xs ++ ys).length) := by
    rw [List.drop_drop, List.length_append, Nat.add_assoc]
  unfold overlay
  rw [List.take_left' hfront, ← List.drop_drop, List.drop_left' hfront, hback, List.append_assoc,
    List.append_assoc, List.append_assoc, List.append_assoc]

theorem overlay_set {dest : List Char} {index : Nat} (h : index < dest.length) (c : Char)
    (block : List Char) :
    overlay (dest.set index c) (index + 1) block = overlay dest index (c :: block) := by
  rw [← overlay_singleton h]
  exact overlay_overlay (show index + [c].length ≤ dest.length from h) block

def ahead (r : Reader) (count : Nat) : Reader := { r with cursor := r.cursor + count }

theorem rest_ahead (r : Reader) (count : Nat) : (r.ahead count).rest = r.rest.drop count := by
  rw [rest, rest, List.drop_drop]
  rfl

theorem ahead_ahead (r : Reader) (m n : Nat) : (r.ahead m).ahead n = r.ahead (m + n) := by
  rw [ahead, ahead, ahead, Nat.add_assoc]

theorem read_of_rest_cons_ahead {r : Reader} {c : Char} {cs : List Char} (h : r.rest = c :: cs) :
    r.read.answer = .ok (some c) ∧ r.read.after = r.ahead 1 := by
  rw [read_of_rest_cons h]
  exact ⟨rfl, rfl⟩

theorem read_eq_end_iff {r : Reader} {text : List Char} (ht : r.text = some text) :
    r.read.answer = .ok none ↔ r.rest = [] := by
  cases hr : r.rest with
  | nil => simp [read_of_rest_nil ht hr]
  | cons c cs => simp [read_of_rest_cons hr]

/-- Reading one character at a time fills in the first characters of the rest. -/
theorem fill_eq {r : Reader} {text : List Char} (ht : r.text = some text) {dest : List Char}
    {index max : Nat} (hfit : index + max ≤ dest.length) :
    r.fill dest index max =
      ⟨(r.rest.take max).length, overlay dest index (r.rest.take max),
        r.ahead (r.rest.take max).length⟩ := by
  -- The reader, the destination and the index all move on by one character.
  induction max generalizing r dest index with
  | zero => rw [fill, List.take_zero, overlay_nil]; rfl
  | succ max ih =>
    cases hr : r.rest with
    | nil =>
      have hread := read_of_rest_nil ht hr
      rw [fill, hread, List.take_nil, overlay_nil]
      rfl
    | cons c cs =>
      obtain ⟨hanswer, hafter⟩ := read_of_rest_cons_ahead hr
      have hrest : (r.ahead 1).rest = cs := by rw [rest_ahead, hr]; rfl
      have hlater := ih (r := r.ahead 1) ht
        (show index + 1 + max ≤ (dest.set index c).length by rw [List.length_set]; omega)
      rw [fill, hanswer]
      simp only [hafter, hlater, hrest, List.take_succ_cons, List.length_cons, ahead_ahead,
        overlay_set (show index < dest.length by omega), Nat.add_comm 1]

/-- A block that fits is the first characters of the rest. It is no block only where characters are
asked for and none are left. -/
theorem readInto_of_fits {r : Reader} {text : List Char} (ht : r.text = some text)
    {dest : List Char} {offset max : Nat} (hfit : offset + max ≤ dest.length) :
    let block := r.rest.take max
    (r.readInto dest offset max).after = r.ahead block.length ∧
      (r.readInto dest offset max).answer =
        (.ok (if 0 < max ∧ r.rest = [] then none else some block.length),
          overlay dest offset block) := by
  have hrest : r.rest = [] ↔ text.length ≤ r.cursor := by
    rw [rest_of_open ht, List.drop_eq_nil_iff]
  simp only [readInto, ht, if_neg (Nat.not_lt.2 hfit)]
  by_cases hmax : max = 0
  · subst hmax
    simp [ahead]
  by_cases hend : text.length ≤ r.cursor
  · rw [if_neg hmax, if_pos hend, if_pos ⟨Nat.pos_of_ne_zero hmax, hrest.2 hend⟩, hrest.2 hend,
      List.take_nil, overlay_nil]
    exact ⟨rfl, rfl⟩
  · rw [if_neg hmax, if_neg hend, if_neg fun h => hend (hrest.1 h.2), rest_of_open ht]
    exact ⟨by rw [ahead, ht], rfl⟩

/-- The turn of a block read, against reading as many characters one at a time. -/
structure Fills (r : Reader) (target : List Char) (offset max : Nat)
    (turn : Turn Reader (Except Fault (Option Nat) × List Char)) : Prop where
  after : turn.after = (r.fill target offset max).after
  dest : turn.answer.2 = (r.fill target offset max).dest
  count : ¬(0 < max ∧ r.read.answer = .ok none) →
    turn.answer.1 = .ok (some (r.fill target offset max).count)
  atEnd : 0 < max → r.read.answer = .ok none → turn = ⟨(.ok none, target), r, []⟩
  written : ∀ i, i < (r.fill target offset max).count → turn.answer.2[offset + i]? = r.rest[i]?
  kept : turn.answer.2.length = target.length ∧
    ∀ i, i < offset ∨ offset + (r.fill target offset max).count ≤ i → turn.answer.2[i]? = target[i]?

/-- Two block reads, the second behind the first, against one of both lengths. -/
structure Joined (first second whole : Turn Reader (Except Fault (Option Nat) × List Char))
    (max : Nat) : Prop where
  after : whole.after = second.after
  dest : whole.answer.2 = second.answer.2
  count : 0 < max → ∃ count, second.answer.1 = .ok count ∧
    whole.answer.1 = .ok (some (max + count.getD 0))

theorem length_rest_take_le (r : Reader) (max : Nat) : (r.rest.take max).length ≤ max := by
  rw [List.length_take]
  exact Nat.min_le_left _ _

theorem fills_readInto {r : Reader} {text : List Char} (ht : r.text = some text)
    {dest : List Char} {offset max : Nat} (hfit : offset + max ≤ dest.length) :
    r.Fills dest offset max (r.readInto dest offset max) := by
  obtain ⟨hafter, hanswer⟩ := readInto_of_fits ht hfit
  have hfill := fill_eq ht hfit
  have hblock : offset + (r.rest.take max).length ≤ dest.length :=
    Nat.le_trans (Nat.add_le_add_left (r.length_rest_take_le max) _) hfit
  refine ⟨?_, ?_, fun hsome => ?_, fun hpos hend => ?_, fun i hi => ?_, ?_, fun i hi => ?_⟩
  · rw [hafter, hfill]
  · rw [hanswer, hfill]
  · rw [read_eq_end_iff ht] at hsome
    rw [hanswer, if_neg hsome, hfill]
  · have hrest := (read_eq_end_iff ht).1 hend
    have hle : text.length ≤ r.cursor := by rwa [rest_of_open ht, List.drop_eq_nil_iff] at hrest
    simp only [readInto, ht, if_neg (Nat.not_lt.2 hfit), if_neg (Nat.ne_of_gt hpos), if_pos hle]
  · rw [hfill] at hi
    have hlt : i < max := Nat.lt_of_lt_of_le hi (r.length_rest_take_le max)
    rw [hanswer, getElem?_overlay hblock, if_pos ⟨Nat.le_add_right _ _, Nat.add_lt_add_left hi _⟩,
      Nat.add_sub_cancel_left, List.getElem?_take_of_lt hlt]
  · rw [hanswer, length_overlay hblock]
  · simp only [hfill] at hi
    rw [hanswer, getElem?_overlay hblock, if_neg (by omega)]

theorem length_rest_take_of_whole {r : Reader} {text : List Char} (ht : r.text = some text)
    {dest : List Char} {offset max : Nat} (hfit : offset + max ≤ dest.length)
    (hwhole : (r.readInto dest offset max).answer.1 = .ok (some max)) :
    (r.rest.take max).length = max := by
  rw [(readInto_of_fits ht hfit).2] at hwhole
  split at hwhole
  · cases hwhole
  · exact Option.some.inj (Except.ok.inj hwhole)

theorem joined_readInto {r : Reader} {text : List Char} (ht : r.text = some text)
    {dest : List Char} {offset max more : Nat} (hfit : offset + max + more ≤ dest.length)
    (hwhole : (r.readInto dest offset max).answer.1 = .ok (some max)) :
    Joined (r.readInto dest offset max)
      ((r.readInto dest offset max).after.readInto (r.readInto dest offset max).answer.2
        (offset + max) more)
      (r.readInto dest offset (max + more)) max := by
  have hfirst : offset + max ≤ dest.length := by omega
  have hmax := length_rest_take_of_whole ht hfirst hwhole
  have hblock : offset + (r.rest.take max).length ≤ dest.length := by omega
  obtain ⟨hafter, hanswer⟩ := readInto_of_fits ht hfirst
  have hsecond : offset + max + more ≤ (overlay dest offset (r.rest.take max)).length := by
    rwa [length_overlay hblock]
  obtain ⟨hafter₂, hanswer₂⟩ := readInto_of_fits (r := r.ahead max) ht hsecond
  obtain ⟨hafter₃, hanswer₃⟩ := readInto_of_fits ht
    (show offset + (max + more) ≤ dest.length by omega)
  rw [hafter, hanswer, hmax]
  rw [rest_ahead] at hafter₂ hanswer₂
  rw [List.take_add] at hafter₃ hanswer₃
  have hlength : (r.rest.take max ++ (r.rest.drop max).take more).length =
      max + ((r.rest.drop max).take more).length := by rw [List.length_append, hmax]
  refine ⟨?_, ?_, fun hpos => ?_⟩
  · rw [hafter₂, hafter₃, hlength, ahead_ahead]
  · have hjoin := overlay_overlay hblock ((r.rest.drop max).take more)
    rw [hmax] at hjoin
    rw [hanswer₂, hanswer₃, hjoin]
  · have hrest : r.rest ≠ [] := by
      intro hnil
      rw [hnil, List.take_nil] at hmax
      exact Nat.ne_of_gt hpos hmax.symm
    refine ⟨_, congrArg Prod.fst hanswer₂, ?_⟩
    rw [hanswer₃, if_neg fun h => hrest h.2, hlength]
    split
    · next hend => rw [hend.2, List.take_nil]; rfl
    · rfl

end Reader

/-- A block read does what as many single reads do, and a second block goes on where the first one, if it
came whole, left off. -/
theorem Reader.block_fills_as_single_reads_do (r : Reader) (ho : r.isClosed = false)
    (dest : List Char) (offset max : Nat) (hfit : offset + max ≤ dest.length) :
    let turn := r.readInto dest offset max
    r.Fills dest offset max turn ∧
    ∀ more, turn.answer.1 = .ok (some max) → offset + max + more ≤ dest.length →
      Joined turn (turn.after.readInto turn.answer.2 (offset + max) more)
        (r.readInto dest offset (max + more)) max := by
  intro turn
  obtain ⟨text, ht⟩ := exists_text_of_open ho
  exact ⟨fills_readInto ht hfit, fun more hwhole hmore => joined_readInto ht hmore hwhole⟩

/-- Two of the four characters that are left after a step, then more than the other two. -/
theorem two_then_three_of_four :
    ((Origin.text ['a', 'b', 'c', 'd', 'e']).reader [.mark 0, .read]).isClosed = false ∧
    1 + 2 ≤ ['-', '-', '-', '-', '-', '-'].length ∧
    ((Origin.text ['a', 'b', 'c', 'd', 'e']).reader [.mark 0, .read]).Fills
      ['-', '-', '-', '-', '-', '-'] 1 2
      (((Origin.text ['a', 'b', 'c', 'd', 'e']).reader [.mark 0, .read]).readInto
        ['-', '-', '-', '-', '-', '-'] 1 2) ∧
    (((Origin.text ['a', 'b', 'c', 'd', 'e']).reader [.mark 0, .read]).readInto
      ['-', '-', '-', '-', '-', '-'] 1 2).answer.1 = .ok (some 2) ∧
    ∃ count, (((Origin.text ['a', 'b', 'c', 'd', 'e']).reader [.mark 0, .read, .skip 2]).readInto
        ['-', 'b', 'c', '-', '-', '-'] 3 3).answer.1 = .ok count ∧
      (((Origin.text ['a', 'b', 'c', 'd', 'e']).reader [.mark 0, .read]).readInto
        ['-', '-', '-', '-', '-', '-'] 1 5).answer.1 = .ok (some (2 + count.getD 0)) := by
  obtain ⟨hfills, hjoined⟩ := ((Origin.text ['a', 'b', 'c', 'd', 'e']).reader
    [.mark 0, .read]).block_fills_as_single_reads_do rfl ['-', '-', '-', '-', '-', '-'] 1 2 (by decide)
  exact ⟨rfl, by decide, hfills, rfl, (hjoined 3 rfl (by decide)).count (by decide)⟩

end Retrace
