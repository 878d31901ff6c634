import Retrace.Reader.Basic

/-! Going back: over characters already read, or to a mark. `reset` keeps the mark it goes to,
`rewind` takes it off, `release` takes it off and stays. With nothing marked, the way back
leads to the start of the text. A mark that was lost is refused by all three, and the
last two still take it off. -/
namespace Retrace
namespace Reader

def unread (r : Reader) (count : Nat) : Turn Reader (Except Fault Unit) :=
  r.withText fun _ =>
    if r.cursor < count then r.refuse (.outOfRange "pushback" count r.cursor)
    else
      let cursor := r.cursor - count
      ⟨.ok (), { r with cursor }, [.unread count cursor]⟩

def unreadOne (r : Reader) : Turn Reader (Except Fault Unit) := r.unread 1

/-- Mark the cursor. The whole text is at hand, so any limit of zero or more will do; a limit
below zero is refused before anything else is looked at. -/
def mark (r : Reader) (limit : Int) : Turn Reader (Except Fault Unit) :=
  if limit < 0 then r.refuse (.badArgument "mark" "read-ahead limit < 0")
  else r.withText fun _ =>
    let marks := r.marks.push r.cursor
    ⟨.ok (), { r with marks }, [.marked r.cursor marks.held.length]⟩

def reset (r : Reader) : Turn Reader (Except Fault Unit) :=
  r.withText fun _ =>
    match r.marks.target? with
    | some cursor => ⟨.ok (), { r with cursor }, [.reset cursor]⟩
    | none => r.refuse (.markLost "reset" r.marks.depth)

def rewind (r : Reader) : Turn Reader (Except Fault Unit) :=
  r.withText fun _ =>
    let marks := r.marks.drop
    match r.marks.target? with
    | some cursor => ⟨.ok (), { r with cursor, marks }, [.rewound cursor marks.held.length]⟩
    | none => ⟨.error (.markLost "rewind" r.marks.depth), { r with marks }, []⟩

/-- Take off the newest mark and answer where it was. -/
def release (r : Reader) : Turn Reader (Except Fault (Option Nat)) :=
  r.withText fun _ =>
    let after := { r with marks := r.marks.drop }
    match r.marks.newest with
    | .known cursor => ⟨.ok (some cursor), after, []⟩
    | .absent => ⟨.ok none, after, []⟩
    | .lost => ⟨.error (.markLost "release_mark" r.marks.depth), after, []⟩

theorem unread_of_le {r : Reader} {text : List Char} (h : r.text = some text) {count : Nat}
    (hc : count ≤ r.cursor) :
    r.unread count =
      ⟨.ok (), { r with cursor := r.cursor - count }, [.unread count (r.cursor - count)]⟩ := by
  simp [unread, withText_of_open h, Nat.not_lt.2 hc]

theorem mark_of_nonneg {r : Reader} {text : List Char} (h : r.text = some text) {limit : Int}
    (hl : 0 ≤ limit) :
    r.mark limit = ⟨.ok (), { r with marks := r.marks.push r.cursor },
      [.marked r.cursor (r.marks.push r.cursor).held.length]⟩ := by
  simp [mark, withText_of_open h, Int.not_lt.2 hl]

theorem reset_of_target {r : Reader} {text : List Char} (h : r.text = some text) {cursor : Nat}
    (ht : r.marks.target? = some cursor) :
    r.reset = ⟨.ok (), { r with cursor }, [.reset cursor]⟩ := by
  simp [reset, withText_of_open h, ht]

theorem reset_of_lost {r : Reader} {text : List Char} (h : r.text = some text)
    (ht : r.marks.target? = none) : r.reset = r.refuse (.markLost "reset" r.marks.depth) := by
  simp [reset, withText_of_open h, ht]

theorem rewind_of_target {r : Reader} {text : List Char} (h : r.text = some text) {cursor : Nat}
    (ht : r.marks.target? = some cursor) :
    r.rewind = ⟨.ok (), { r with cursor, marks := r.marks.drop },
      [.rewound cursor r.marks.drop.held.length]⟩ := by
  simp [rewind, withText_of_open h, ht]

theorem rewind_of_lost {r : Reader} {text : List Char} (h : r.text = some text)
    (ht : r.marks.target? = none) :
    r.rewind = ⟨.error (.markLost "rewind" r.marks.depth), { r with marks := r.marks.drop }, []⟩ := by
  simp [rewind, withText_of_open h, ht]

end Reader
end Retrace
