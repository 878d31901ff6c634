import Retrace.Proofs.Checked
import Retrace.Proofs.Delivery

/-! Moves by a signed distance. A move lands on the place that it would reach on a line without
ends, held inside the text, and answers how far that is. It does so on words of 64 bits too, for
every distance that is such a word. Single steps land on the same place, and so do two moves in one
direction for one move by their sum. -/
namespace Retrace

namespace Words

/-- How far a signed distance is. That of the least one is no signed word, but it is a word. -/
def magnitude (n : Int64) : UInt64 := if n < 0 then (-n).toUInt64 else n.toUInt64

/-- A word as a signed word, or the largest one where it is too large. -/
def signed (n : UInt64) : Int64 := if n.toNat ≤ Checked.longest then n.toInt64 else Int64.maxValue

def add (a b : UInt64) : Except Crash UInt64 :=
  if a.toNat + b.toNat ≤ Count.top then .ok (a + b) else .error .overflow

def sub (a b : UInt64) : Except Crash UInt64 := if b ≤ a then .ok (a - b) else .error .underflow

def neg (n : Int64) : Except Crash Int64 :=
  if n = Int64.minValue then .error .overflow else .ok (-n)

/-- A move in a text of so many characters: the cursor after it, and how far that is. -/
def skip (length cursor : UInt64) (distance : Int64) : Except Crash (UInt64 × Int64) :=
  if 0 ≤ distance then do
    let stride := min (magnitude distance) (← sub length cursor)
    return (← add cursor stride, signed stride)
  else do
    let stride := min (magnitude distance) cursor
    return (← sub cursor stride, ← neg (signed stride))

theorem toInt_toInt64 (w : UInt64) :
    w.toInt64.toInt =
      if 2 * w.toNat < UInt64.size then (w.toNat : Int) else w.toNat - UInt64.size :=
  BitVec.toInt_eq_toNat_cond w.toBitVec

theorem toNat_magnitude (n : Int64) : (magnitude n).toNat = n.toInt.natAbs := by
  have hn := toInt_toInt64 n.toUInt64
  have hw := n.toUInt64.toNat_lt
  rw [Int64.toInt64_toUInt64, UInt64.size] at hn
  unfold magnitude
  by_cases h : n < 0
  · have hneg : n.toInt < 0 := Int64.lt_iff_toInt_lt.1 h
    rw [if_pos h, Int64.toUInt64_neg, UInt64.toNat_neg, UInt64.size]
    split at hn <;> omega
  · have hnonneg : 0 ≤ n.toInt := Int.not_lt.1 fun hlt => h (Int64.lt_iff_toInt_lt.2 hlt)
    rw [if_neg h]
    split at hn <;> omega

theorem toNat_min (a b : UInt64) : (min a b).toNat = min a.toNat b.toNat := by
  change (if a ≤ b then a else b).toNat = _
  simp only [UInt64.le_iff_toNat_le]
  split <;> omega

theorem toInt_signed {n : UInt64} (h : n.toNat ≤ Checked.longest) :
    (signed n).toInt = n.toNat := by
  have hhalf : 2 * n.toNat < UInt64.size := by
    unfold Checked.longest at h
    unfold UInt64.size at h ⊢
    omega
  rw [signed, if_pos h, toInt_toInt64, if_pos hhalf]

/-- The length of a text that fits in memory is a word as it is, and so is a cursor inside it. -/
theorem toNat_ofNat_of_le_longest {n : Nat} (h : n ≤ Checked.longest) : (UInt64.ofNat n).toNat = n := by
  refine UInt64.toNat_ofNat_of_lt' ?_
  unfold Checked.longest at h
  unfold UInt64.size at h ⊢
  omega

theorem add_eq_ok {a b : UInt64} (h : a.toNat + b.toNat ≤ Count.top) :
    ∃ c, add a b = .ok c ∧ c.toNat = a.toNat + b.toNat := by
  refine ⟨a + b, if_pos h, ?_⟩
  unfold Count.top UInt64.size at h
  rw [UInt64.toNat_add]
  omega

theorem sub_eq_ok {a b : UInt64} (h : b.toNat ≤ a.toNat) :
    ∃ c, sub a b = .ok c ∧ c.toNat = a.toNat - b.toNat :=
  ⟨a - b, if_pos (UInt64.le_iff_toNat_le.2 h), UInt64.toNat_sub_of_le a b (UInt64.le_iff_toNat_le.2 h)⟩

theorem toInt_neg {n : Int64} (h : Int64.minValue.toInt < n.toInt) : (-n).toInt = -n.toInt := by
  have hlt := n.toInt_lt
  rw [Int64.toInt_minValue] at h
  rw [Int64.toInt_neg, Int.bmod_eq_of_le (by omega) (by omega)]

theorem neg_eq_ok {n : Int64} (h : Int64.minValue.toInt < n.toInt) : neg n = .ok (-n) := by
  refine if_neg ?_
  rintro rfl
  exact Int.lt_irrefl _ h

/-- No move of a cursor inside a text overflows. -/
theorem skip_eq_ok {length cursor : UInt64} (hc : cursor.toNat ≤ length.toNat)
    (hl : length.toNat ≤ Checked.longest) (distance : Int64) :
    ∃ after delta, skip length cursor distance = .ok (after, delta) ∧
      (after.toNat : Int) = max 0 (min (length.toNat : Int) (cursor.toNat + distance.toInt)) ∧
      delta.toInt = after.toNat - cursor.toNat := by
  have hmagnitude := toNat_magnitude distance
  have htop := Checked.longest_lt_top
  unfold skip
  by_cases h : 0 ≤ distance
  · have hnonneg : 0 ≤ distance.toInt := Int64.le_iff_toInt_le.1 h
    obtain ⟨left, hleft, hleft'⟩ := sub_eq_ok hc
    have hstride := toNat_min (magnitude distance) left
    obtain ⟨after, hafter, hafter'⟩ :=
      add_eq_ok (a := cursor) (b := min (magnitude distance) left) (by omega)
    refine ⟨after, signed (min (magnitude distance) left), ?_, by omega, ?_⟩
    · simp only [if_pos h, hleft, hafter, Checked.ok_bind]
      rfl
    · rw [toInt_signed (by omega)]
      omega
  · have hneg : distance.toInt < 0 := Int.not_le.1 fun hle => h (Int64.le_iff_toInt_le.2 hle)
    have hstride := toNat_min (magnitude distance) cursor
    obtain ⟨after, hafter, hafter'⟩ :=
      sub_eq_ok (a := cursor) (b := min (magnitude distance) cursor) (by omega)
    have hsigned : (signed (min (magnitude distance) cursor)).toInt =
        (min (magnitude distance) cursor).toNat := toInt_signed (by omega)
    have hleast : Int64.minValue.toInt < (signed (min (magnitude distance) cursor)).toInt := by
      rw [Int64.toInt_minValue]
      omega
    have hdelta := toInt_neg hleast
    refine ⟨after, -signed (min (magnitude distance) cursor), ?_, by omega, by omega⟩
    simp only [if_neg h, hafter, neg_eq_ok hleast, Checked.ok_bind]
    rfl

end Words

namespace Reader

/-- A move by some distance, held inside the text, that comes out so much further. -/
structure Lands (r : Reader) (distance : Int) (s : Reader) (delta : Int) : Prop where
  offset : (s.status.offset : Int) = max 0 (min (r.status.length : Int) (r.status.offset + distance))
  moved : delta = s.status.offset - r.status.offset
  same : s = { r with cursor := s.cursor }

namespace Lands

variable {r s t : Reader} {m n δ ε : Int}

theorem of_cursor (hc : (s.cursor : Int) = max 0 (min (r.length : Int) (r.cursor + n)))
    (hd : δ = s.cursor - r.cursor) (hs : s = { r with cursor := s.cursor }) : r.Lands n s δ :=
  ⟨hc, hd, hs⟩

theorem cursor (h : r.Lands n s δ) : (s.cursor : Int) = max 0 (min (r.length : Int) (r.cursor + n)) :=
  h.offset

theorem delta (h : r.Lands n s δ) : δ = s.cursor - r.cursor := h.moved

theorem text (h : r.Lands n s δ) : s.text = r.text := by rw [h.same]

theorem length (h : r.Lands n s δ) : s.length = r.length := by
  rw [Reader.length, Reader.length, h.text]

theorem cursor_le (h : r.Lands n s δ) : s.cursor ≤ s.length := by
  have hcursor := h.cursor
  rw [h.length]
  omega

theorem unique (h : r.Lands n s δ) (h' : r.Lands n t ε) : s = t ∧ δ = ε := by
  have hcursor : s.cursor = t.cursor := Int.ofNat.inj (h.cursor.trans h'.cursor.symm)
  exact ⟨by rw [h.same, h'.same, hcursor], by rw [h.delta, h'.delta, hcursor]⟩

theorem nowhere (hc : r.cursor ≤ r.length) : r.Lands 0 r 0 :=
  .of_cursor (by omega) (by omega) rfl

theorem back (hc : r.cursor ≤ r.length) (h : r.Lands n s δ) : s.Lands (-δ) r (-δ) := by
  have hdelta := h.delta
  have hlength := h.length
  exact .of_cursor (by omega) (by omega) (by rw [h.same])

theorem trans (h : r.Lands m s δ) (h' : s.Lands n t ε) (hc : r.cursor ≤ r.length)
    (hsign : 0 ≤ m ∧ 0 ≤ n ∨ m ≤ 0 ∧ n ≤ 0) : r.Lands (m + n) t (δ + ε) := by
  have hfirst := h.cursor
  have hsecond := h'.cursor
  rw [h.length] at hsecond
  have hdelta := h.delta
  have hdelta' := h'.delta
  exact .of_cursor (by omega) (by omega) (by rw [h'.same, h.same])

end Lands

variable {r : Reader} {text : List Char}

theorem lands_skip (ht : r.text = some text) (hc : r.cursor ≤ r.length) (n : Int) :
    ∃ δ, r.skip n = ⟨.ok δ, (r.skip n).after, [.skipped n δ (r.skip n).after.cursor]⟩ ∧
      r.Lands n (r.skip n).after δ := by
  have hlength : r.length = text.length := by rw [length, ht, Option.getD_some]
  rw [hlength] at hc
  rw [skip, withText_of_open ht]
  refine ⟨_, rfl, .of_cursor ?_ ?_ rfl⟩ <;> simp only [hlength] <;> omega

theorem lands_read (ht : r.text = some text) (hc : r.cursor ≤ r.length) :
    r.Lands 1 (r.perform .read).after (Step.delivered .read (r.perform .read).answer).length := by
  have hlength := r.length_rest
  cases hr : r.rest with
  | nil =>
    rw [hr, List.length_nil] at hlength
    rw [perform, read_of_rest_nil ht hr]
    exact .of_cursor (by simp only [Turn.after_map]; omega) (Int.sub_self _).symm rfl
  | cons c cs =>
    rw [hr, List.length_cons] at hlength
    rw [perform, read_of_rest_cons hr]
    refine .of_cursor ?_ ?_ rfl <;>
      simp only [Turn.after_map, Turn.answer_map, Reply.ofExcept, Except.map, Step.delivered,
        Option.toList_some, List.length_singleton] <;> omega

theorem lands_unreadOne (ht : r.text = some text) (hc : r.cursor ≤ r.length) :
    r.Lands (-1) (r.perform .unreadOne).after
      (-if (r.perform .unreadOne).answer.isRefusal then 0 else 1) := by
  rw [perform, unreadOne]
  by_cases h : r.cursor < 1
  · simp only [unread, withText_of_open ht, if_pos h]
    exact .of_cursor (by simp only [Turn.after_map, after_refuse]; omega) (Int.sub_self _).symm rfl
  · rw [unread_of_le ht (Nat.not_lt.1 h)]
    refine .of_cursor ?_ ?_ rfl <;>
      simp only [Turn.after_map, Turn.answer_map, Reply.ofExcept, Reply.isRefusal, Except.map] <;> grind

/-- Reading as many characters as the distance says lands where the move does. -/
theorem lands_reads (ht : r.text = some text) (hc : r.cursor ≤ r.length) (k : Nat) :
    r.Lands k (r.afterAll (List.replicate k .read))
      (r.deliveredBy (List.replicate k (.own .read))).length := by
  induction k generalizing r with
  | zero => exact .nowhere hc
  | succ k ih =>
    have hfirst := lands_read ht hc
    have hlater := ih (hfirst.text.trans ht) hfirst.cursor_le
    have hall := hfirst.trans hlater hc (.inl ⟨by omega, by omega⟩)
    rw [List.replicate_succ, List.replicate_succ, afterAll_cons, deliveredBy, List.length_append,
      Int.natCast_add, Int.natCast_succ, Int.add_comm (k : Int)]
    exact hall

/-- So does going back one character as often, where the refusals are ignored. -/
theorem lands_unreadOnes (ht : r.text = some text) (hc : r.cursor ≤ r.length) (k : Nat) :
    r.Lands (-k) (r.afterAll (List.replicate k .unreadOne))
      (-(r.granted (List.replicate k .unreadOne)).length) := by
  induction k generalizing r with
  | zero => exact .nowhere hc
  | succ k ih =>
    have hfirst := lands_unreadOne ht hc
    have hlater := ih (hfirst.text.trans ht) hfirst.cursor_le
    have hall := hfirst.trans hlater hc (.inr ⟨by omega, by omega⟩)
    have hone (j : Nat) : -((j + 1 : Nat) : Int) = -1 + -j := by omega
    rw [List.replicate_succ, afterAll_cons, granted_cons, hone]
    by_cases h : (r.perform .unreadOne).answer.isRefusal
    · rw [if_pos h, Int.neg_zero, Int.zero_add] at hall
      rwa [if_pos h]
    · rw [if_neg h] at hall
      rwa [if_neg h, List.length_cons, hone]

/-- A move as words make it, against the place on a line without ends. -/
structure SkipsExactly (r : Reader) (distance : Int64) (cursor : UInt64) (delta : Int64) : Prop where
  words : Words.skip (.ofNat r.status.length) (.ofNat r.status.offset) distance = .ok (cursor, delta)
  turn : r.skip distance.toInt = ⟨.ok delta.toInt, { r with cursor := cursor.toNat },
    [.skipped distance.toInt delta.toInt cursor.toNat]⟩
  offset : (r.skip distance.toInt).after.status.offset = cursor.toNat
  clamped : (cursor.toNat : Int) = max 0 (min (r.status.length : Int) (r.status.offset + distance.toInt))
  exact : delta.toInt = (cursor.toNat : Int) - r.status.offset
  back : (-delta).toInt = -delta.toInt ∧
    ∃ log, (r.skip distance.toInt).after.skip (-delta).toInt = ⟨.ok (-delta).toInt, r, log⟩

theorem exists_skipsExactly (ht : r.text = some text) (hc : r.cursor ≤ r.length)
    (hl : r.length ≤ Checked.longest) (n : Int64) :
    ∃ cursor delta, r.SkipsExactly n cursor delta ∧
      r.Lands n.toInt (r.skip n.toInt).after delta.toInt := by
  have hlength := Words.toNat_ofNat_of_le_longest hl
  have hcursor := Words.toNat_ofNat_of_le_longest (Nat.le_trans hc hl)
  obtain ⟨cursor, delta, hwords, hclamped, hexact⟩ :=
    Words.skip_eq_ok (show (UInt64.ofNat r.cursor).toNat ≤ (UInt64.ofNat r.length).toNat by omega)
      (by omega) n
  rw [hlength, hcursor] at hclamped
  rw [hcursor] at hexact
  obtain ⟨δ, hturn, hlands⟩ := lands_skip ht hc n.toInt
  have hword : r.Lands n.toInt { r with cursor := cursor.toNat } delta.toInt :=
    ⟨hclamped, hexact, rfl⟩
  obtain ⟨hafter, rfl⟩ := hlands.unique hword
  -- At worst the move comes back from the end of the longest text, and that has an opposite.
  have hleast : Int64.minValue.toInt < delta.toInt := by
    rw [Int64.toInt_minValue]
    unfold Checked.longest UInt64.size at hl
    omega
  have hneg := Words.toInt_neg hleast
  obtain ⟨ε, hback, hlandsBack⟩ := lands_skip (hlands.text.trans ht) hlands.cursor_le (-delta).toInt
  obtain ⟨hstart, rfl⟩ := hlandsBack.unique (hneg ▸ hlands.back hc)
  refine ⟨cursor, delta, ⟨hwords, ?_, ?_, hclamped, hexact, hneg, ?_⟩, hlands⟩
  · rw [hturn, hafter]
  · rw [hafter, status_offset]
  · exact ⟨_, by rw [hback, hstart, hneg]⟩

end Reader

/-- A move by any distance of 64 bits lands at the nearest place inside the text, answers how far that was,
and can be undone, made step by step or, in one direction, in parts. -/
theorem Origin.skip_lands_inside_text (origin : Origin) (past : List Step)
    (ho : (origin.reader past).isClosed = false)
    (hl : (origin.reader past).status.length ≤ Checked.longest) (n : Int64) :
    let r := origin.reader past
    ∃ cursor delta, r.SkipsExactly n cursor delta ∧
      (0 ≤ n → (r.skip n.toInt).after = r.afterAll (List.replicate n.toInt.toNat .read) ∧
        delta.toInt = (r.deliveredBy (List.replicate n.toInt.toNat (.own .read))).length) ∧
      (n < 0 → (r.skip n.toInt).after = r.afterAll (List.replicate n.toInt.natAbs .unreadOne) ∧
        -delta.toInt = (r.granted (List.replicate n.toInt.natAbs .unreadOne)).length) ∧
      ∀ m : Int64, 0 ≤ n ∧ 0 ≤ m ∨ n ≤ 0 ∧ m ≤ 0 →
        ∃ delta', ((r.skip n.toInt).after.skip m.toInt).answer = .ok delta' ∧
          r.Lands (n.toInt + m.toInt) ((r.skip n.toInt).after.skip m.toInt).after
            (delta.toInt + delta') := by
  intro r
  obtain ⟨text, ht⟩ := Reader.exists_text_of_open ho
  have hc : r.cursor ≤ r.length := (origin.wellFormed_reader past).cursor_le (by simp [ht])
  obtain ⟨cursor, delta, hskips, hlands⟩ := Reader.exists_skipsExactly ht hc hl n
  refine ⟨cursor, delta, hskips, fun hn => ?_, fun hn => ?_, fun m hsign => ?_⟩
  · have hnonneg : 0 ≤ n.toInt := Int64.le_iff_toInt_le.1 hn
    have hreads := Reader.lands_reads ht hc n.toInt.toNat
    rw [Int.toNat_of_nonneg hnonneg] at hreads
    exact hlands.unique hreads
  · have hneg : n.toInt < 0 := Int64.lt_iff_toInt_lt.1 hn
    have hunreads := Reader.lands_unreadOnes ht hc n.toInt.natAbs
    rw [show -(n.toInt.natAbs : Int) = n.toInt by omega] at hunreads
    obtain ⟨hafter, hdelta⟩ := hlands.unique hunreads
    exact ⟨hafter, by rw [hdelta, Int.neg_neg]⟩
  · obtain ⟨delta', hturn, hlands'⟩ :=
      Reader.lands_skip (hlands.text.trans ht) hlands.cursor_le m.toInt
    have hsign' : 0 ≤ n.toInt ∧ 0 ≤ m.toInt ∨ n.toInt ≤ 0 ∧ m.toInt ≤ 0 := by
      simpa [Int64.le_iff_toInt_le] using hsign
    exact ⟨delta', by rw [hturn], hlands.trans hlands' hc hsign'⟩

/-- The least distance of all, in a text of four: three steps back, however often more are tried. -/
theorem least_distance_is_three_back :
    ((Origin.text ['a', 'b', 'c', 'd']).reader [.mark 0, .skip 3]).isClosed = false ∧
    ((Origin.text ['a', 'b', 'c', 'd']).reader [.mark 0, .skip 3]).length ≤ Checked.longest ∧
    ((Origin.text ['a', 'b', 'c', 'd']).reader [.mark 0, .skip 3]).SkipsExactly Int64.minValue 0 (-3) ∧
    (((Origin.text ['a', 'b', 'c', 'd']).reader [.mark 0, .skip 3]).granted
      (List.replicate Int64.minValue.toInt.natAbs .unreadOne)).length = (3 : Int) := by
  have hl : ((Origin.text ['a', 'b', 'c', 'd']).reader [.mark 0, .skip 3]).length ≤ Checked.longest := by
    decide
  obtain ⟨cursor, delta, hskips, -, hback, -⟩ :=
    (Origin.text ['a', 'b', 'c', 'd']).skip_lands_inside_text [.mark 0, .skip 3] rfl hl Int64.minValue
  have hwords : Words.skip (.ofNat 4) (.ofNat 3) Int64.minValue = .ok (0, -3) := rfl
  obtain ⟨rfl, rfl⟩ := Prod.mk.inj (Except.ok.inj (hwords.symm.trans hskips.words))
  exact ⟨rfl, hl, hskips, (hback (by decide)).2.symm⟩

end Retrace
