import Retrace.Reader.Basic

/-! Reading forward, in steps of one character, of a block, or of a signed distance, and
looking at the text without moving. -/
namespace Retrace
namespace Reader

/-- The next character, which stays unread. -/
def look (r : Reader) : Except Fault (Option Char) := r.contents.map fun text => text[r.cursor]?

/-- The next character, or nothing at the end, where the cursor stays. -/
def read (r : Reader) : Turn Reader (Except Fault (Option Char)) :=
  r.withText fun text =>
    match text[r.cursor]? with
    | some c => ⟨.ok (some c), { r with cursor := r.cursor + 1 }, [.read r.cursor c]⟩
    | none => ⟨.ok none, r, []⟩

/-- The destination with a block of characters written over it from an offset on. -/
def overlay (dest : List Char) (offset : Nat) (block : List Char) : List Char :=
  dest.take offset ++ block ++ dest.drop (offset + block.length)

/-- Copy up to `max` characters over the destination, from an offset on. The whole range has
to lie in the destination, even where fewer characters are left. A request for no characters
is granted without a look at the cursor; otherwise the end of the text is no count. -/
def readInto (r : Reader) (dest : List Char) (offset max : Nat) :
    Turn Reader (Except Fault (Option Nat) × List Char) :=
  match r.text with
  | none => ⟨(.error .closed, dest), r, []⟩
  | some text =>
    if dest.length < offset + max then
      ⟨(.error (.outOfRange "read_into" (Count.add offset max) dest.length), dest), r, []⟩
    else if max = 0 then ⟨(.ok (some 0), dest), r, []⟩
    else if text.length ≤ r.cursor then ⟨(.ok none, dest), r, []⟩
    else
      let block := (text.drop r.cursor).take max
      ⟨(.ok (some block.length), overlay dest offset block),
        { r with cursor := r.cursor + block.length }, [.readInto r.cursor block.length]⟩

/-- Move by a signed distance, as far as the text goes, and answer how far that was. -/
def skip (r : Reader) (distance : Int) : Turn Reader (Except Fault Int) :=
  r.withText fun text =>
    let ahead := min distance.toNat (text.length - r.cursor)
    let back := min (-distance).toNat r.cursor
    let cursor := r.cursor + ahead - back
    ⟨.ok (ahead - back), { r with cursor }, [.skipped distance (ahead - back) cursor]⟩

def remainder (r : Reader) : Except Fault (List Char) :=
  r.contents.map fun text => text.drop r.cursor

def snapshot (r : Reader) : Except Fault (List Char) := r.contents

theorem length_overlay {dest block : List Char} {offset : Nat}
    (h : offset + block.length ≤ dest.length) :
    (overlay dest offset block).length = dest.length := by
  simp only [overlay, List.length_append, List.length_take, List.length_drop]
  omega

theorem getElem?_overlay {dest block : List Char} {offset : Nat}
    (h : offset + block.length ≤ dest.length) (i : Nat) :
    (overlay dest offset block)[i]? =
      if offset ≤ i ∧ i < offset + block.length then block[i - offset]? else dest[i]? := by
  have ht : (dest.take offset).length = offset := by rw [List.length_take]; omega
  unfold overlay
  rw [List.append_assoc]
  by_cases h₁ : i < offset
  · rw [List.getElem?_append_left (by omega), List.getElem?_take_of_lt h₁, if_neg (by omega)]
  · rw [List.getElem?_append_right (by omega), ht]
    by_cases h₂ : i < offset + block.length
    · rw [List.getElem?_append_left (by omega), if_pos (by omega)]
    · rw [List.getElem?_append_right (by omega), List.getElem?_drop, if_neg (by omega)]
      congr 1
      omega

theorem read_of_rest_nil {r : Reader} {text : List Char} (h : r.text = some text)
    (hr : r.rest = []) : r.read = ⟨.ok none, r, []⟩ := by
  rw [rest_of_open h, List.drop_eq_nil_iff] at hr
  simp [read, withText_of_open h, hr]

theorem read_of_rest_cons {r : Reader} {c : Char} {cs : List Char} (hr : r.rest = c :: cs) :
    r.read = ⟨.ok (some c), { r with cursor := r.cursor + 1 }, [.read r.cursor c]⟩ := by
  cases h : r.text with
  | none => simp [rest_of_closed h] at hr
  | some text =>
    rw [rest_of_open h] at hr
    have hc : text[r.cursor]? = some c := by
      rw [← List.head?_drop, hr, List.head?_cons]
    simp [read, withText, h, hc]

theorem rest_succ {r : Reader} {c : Char} {cs : List Char} (hr : r.rest = c :: cs) :
    Reader.rest { r with cursor := r.cursor + 1 } = cs := by
  have : (r.rest).drop 1 = cs := by rw [hr]; rfl
  rw [← this]
  simp [rest, List.drop_drop]

end Reader
end Retrace
