import Retrace.Text

/-! A bounded stack of saved cursors. Marking a full stack loses the oldest mark, and a lost
mark is still counted: going back to it is refused, instead of landing on some older place.
An empty stack that never lost a mark stands for the start of the text. -/
namespace Retrace

structure Marks where
  depth : Nat
  /-- The cursors still known, newest first. -/
  held : List Nat := []
  /-- How many older marks were lost and not yet taken off. -/
  lost : Nat := 0
  deriving DecidableEq, Repr

namespace Marks

inductive Newest where
  | absent
  | known (cursor : Nat)
  | lost
  deriving DecidableEq, Repr

def push (m : Marks) (cursor : Nat) : Marks :=
  if m.held.length = m.depth then
    { m with held := cursor :: m.held.dropLast, lost := Count.add m.lost 1 }
  else { m with held := cursor :: m.held }

def newest (m : Marks) : Newest :=
  match m.held with
  | cursor :: _ => .known cursor
  | [] => if m.lost = 0 then .absent else .lost

/-- The cursor to go back to: the newest mark, or the start where there is none. -/
def target? (m : Marks) : Option Nat :=
  match m.newest with
  | .absent => some 0
  | .known cursor => some cursor
  | .lost => none

/-- Take off the newest mark, lost or not. -/
def drop (m : Marks) : Marks :=
  match m.held with
  | _ :: older => { m with held := older }
  | [] => { m with lost := m.lost - 1 }

def clear (m : Marks) : Marks := { m with held := [], lost := 0 }

@[simp] theorem depth_push (m : Marks) (cursor : Nat) : (m.push cursor).depth = m.depth := by
  unfold push; split <;> rfl

@[simp] theorem depth_drop (m : Marks) : m.drop.depth = m.depth := by
  unfold drop; split <;> rfl

@[simp] theorem depth_clear (m : Marks) : m.clear.depth = m.depth := rfl
@[simp] theorem held_clear (m : Marks) : m.clear.held = [] := rfl
@[simp] theorem lost_clear (m : Marks) : m.clear.lost = 0 := rfl

theorem length_held_push_le {m : Marks} (hd : 0 < m.depth) (h : m.held.length ≤ m.depth)
    (cursor : Nat) : (m.push cursor).held.length ≤ m.depth := by
  unfold push
  split
  · simp only [List.length_cons, List.length_dropLast]; omega
  · simp only [List.length_cons]; omega

@[simp] theorem newest_push (m : Marks) (cursor : Nat) :
    (m.push cursor).newest = .known cursor := by
  unfold push; split <;> rfl

theorem newest_eq_lost_iff {m : Marks} : m.newest = .lost ↔ m.held = [] ∧ 0 < m.lost := by
  unfold newest
  cases m.held with
  | nil => by_cases h : m.lost = 0 <;> simp [h]; omega
  | cons => simp

theorem newest_eq_absent_iff {m : Marks} : m.newest = .absent ↔ m.held = [] ∧ m.lost = 0 := by
  unfold newest
  cases m.held with
  | nil => by_cases h : m.lost = 0 <;> simp [h]
  | cons => simp

theorem target?_eq_none_iff {m : Marks} : m.target? = none ↔ m.newest = .lost := by
  unfold target?
  cases m.newest <;> simp

@[simp] theorem target?_push (m : Marks) (cursor : Nat) :
    (m.push cursor).target? = some cursor := by
  simp [target?]

end Marks
end Retrace
