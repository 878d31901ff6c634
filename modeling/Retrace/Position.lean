/-! Where a reading stands: the line, as far as the reader's owner has said, and the number
of characters before the next one. Positions are ordered by line, then by offset. -/
namespace Retrace

structure Position where
  line : Nat
  offset : Nat
  deriving DecidableEq, Repr, Inhabited

namespace Position

def start : Position := ⟨0, 0⟩

instance : Ord Position where
  compare p q := (compare p.line q.line).then (compare p.offset q.offset)

instance : LE Position := leOfOrd
instance : LT Position := ltOfOrd

theorem compare_def (p q : Position) :
    compare p q = (compare p.line q.line).then (compare p.offset q.offset) := rfl

theorem compare_eq_iff {p q : Position} : compare p q = .eq ↔ p = q := by
  cases p; cases q
  simp [compare_def, Ordering.then_eq_eq]

theorem le_iff {p q : Position} :
    p ≤ q ↔ p.line < q.line ∨ p.line = q.line ∧ p.offset ≤ q.offset := by
  change (compare p q).isLE = true ↔ _
  rw [compare_def]
  rcases Nat.lt_trichotomy p.line q.line with h | h | h
  · simp [Nat.compare_eq_lt.2 h, h]
  · simp [h, Nat.isLE_compare]
  · simp [Nat.compare_eq_gt.2 h]; omega

theorem lt_iff {p q : Position} :
    p < q ↔ p.line < q.line ∨ p.line = q.line ∧ p.offset < q.offset := by
  change compare p q = .lt ↔ _
  rw [compare_def]
  rcases Nat.lt_trichotomy p.line q.line with h | h | h
  · simp [Nat.compare_eq_lt.2 h, h]
  · simp [h, Nat.compare_eq_lt]
  · simp [Nat.compare_eq_gt.2 h]; omega

/-- Positions in ascending order; equal ones are all kept. -/
def sort (ps : List Position) : List Position := ps.mergeSort fun p q => (compare p q).isLE

theorem isLE_compare_trans {p q r : Position} (h₁ : (compare p q).isLE = true)
    (h₂ : (compare q r).isLE = true) : (compare p r).isLE = true := by
  have hpq : p ≤ q := h₁
  have hqr : q ≤ r := h₂
  change p ≤ r
  rw [le_iff] at *
  omega

theorem isLE_compare_total (p q : Position) :
    ((compare p q).isLE || (compare q p).isLE) = true := by
  rw [Bool.or_eq_true]
  change p ≤ q ∨ q ≤ p
  rw [le_iff, le_iff]
  omega

theorem sort_perm (ps : List Position) : (sort ps).Perm ps := List.mergeSort_perm _ _

theorem pairwise_sort (ps : List Position) : (sort ps).Pairwise (· ≤ ·) :=
  @List.pairwise_mergeSort Position (fun p q => (compare p q).isLE)
    (fun _ _ _ => isLE_compare_trans) isLE_compare_total ps

/-- The text for a reader of messages. -/
def text (p : Position) : String :=
  "line " ++ toString p.line ++ ", offset " ++ toString p.offset

def short (p : Position) : String := toString p.line ++ ":" ++ toString p.offset

end Position
end Retrace
