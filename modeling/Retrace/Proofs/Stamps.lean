import Retrace.Proofs.Replay
import Mathlib.Data.Prod.Lex

/-! Positions as the stamps of a scan that goes on. Positions are ordered like pairs, the line first.
From call to call of such a scan they never go back, and they go on exactly where a character was
passed or the line was raised, so that two stamps are equal only if nothing of that kind lies between. -/
namespace Retrace

namespace Position

theorem le_iff_toLex {p q : Position} :
    p ≤ q ↔ toLex (p.line, p.offset) ≤ toLex (q.line, q.offset) := by
  rw [le_iff, Prod.Lex.toLex_le_toLex]

theorem lt_iff_toLex {p q : Position} :
    p < q ↔ toLex (p.line, p.offset) < toLex (q.line, q.offset) := by
  rw [lt_iff, Prod.Lex.toLex_lt_toLex]

instance : LinearOrder Position where
  le_refl p := le_iff.2 (.inr ⟨rfl, Nat.le_refl _⟩)
  le_trans _ _ _ := isLE_compare_trans
  lt_iff_le_not_ge p q := by
    rw [lt_iff, le_iff, le_iff]
    omega
  le_antisymm p q h₁ h₂ := by
    rw [le_iff] at h₁ h₂
    cases p; cases q
    simp only [mk.injEq] at h₁ h₂ ⊢
    omega
  le_total p q := Bool.or_eq_true_iff.1 (isLE_compare_total p q)
  toDecidableLE p q := decidable_of_iff _ le_iff.symm
  compare_eq_compareOfLessAndEq p q := by
    have hlt : p < q ↔ compare p q = .lt := Iff.rfl
    rw [compareOfLessAndEq]
    simp only [hlt, ← compare_eq_iff]
    cases compare p q <;> rfl

end Position

namespace Step

/-- The calls of a scan that goes on, on a line. -/
def scansOn (line : Nat) : Step → Bool
  | .mark _ | .release | .close => true
  | .setLine new => decide (line ≤ new)
  | step => step.goesOn

end Step

namespace Reader

def scansOn (r : Reader) : List Step → Bool
  | [] => true
  | step :: steps => step.scansOn r.line && (r.perform step).after.scansOn steps

/-- A call passes a character, by its reply, or raises the line. -/
def Gains (r : Reader) (step : Step) : Prop :=
  0 < step.advance (r.perform step).answer ∨ ∃ line, step = .setLine line ∧ r.line < line

/-- No call of a history does so. -/
def Idles (r : Reader) : List Step → Prop
  | [] => True
  | step :: steps => ¬ r.Gains step ∧ (r.perform step).after.Idles steps

/-- The positions before, between and after the calls of a history. -/
def stamps (r : Reader) : List Step → List Position
  | [] => [r.position]
  | step :: steps => r.position :: (r.perform step).after.stamps steps

theorem cursor_after_mark (r : Reader) (limit : Int) : (r.mark limit).after.cursor = r.cursor :=
  (r.delivers_mark limit).cursor

theorem cursor_after_release (r : Reader) : r.release.after.cursor = r.cursor := by
  cases ht : r.text with
  | none => rw [release, withText_of_closed ht, after_refuse]
  | some text => rw [after_release_of_open ht]

theorem cursor_after_scan (r : Reader) {step : Step} {line : Nat} (h : step.scansOn line = true) :
    ((r.perform step).after.cursor : Int) = r.cursor + step.advance (r.perform step).answer ∧
      0 ≤ step.advance (r.perform step).answer := by
  cases step with
  | mark limit =>
    exact ⟨by simp [perform, r.cursor_after_mark, Step.advance], by simp [Step.advance]⟩
  | release =>
    exact ⟨by simp [perform, r.cursor_after_release, Step.advance], by simp [Step.advance]⟩
  | close | setLine => exact ⟨(Int.add_zero _).symm, Int.le_refl 0⟩
  | _ => exact ⟨r.cursor_after_perform h, r.advance_perform_nonneg h⟩

theorem line_after_scan (r : Reader) {step : Step} (h : step.scansOn r.line = true) :
    r.line ≤ (r.perform step).after.line ∧
      (r.line < (r.perform step).after.line ↔ ∃ line, step = .setLine line ∧ r.line < line) := by
  rw [line_perform]
  cases step with
  | setLine line => exact ⟨of_decide_eq_true h, by simp [lineAfter]⟩
  | _ => simp [lineAfter]

/-- A call of a scan that gains nothing leaves the stamp, and any other one puts a later stamp. -/
theorem position_after_scan (r : Reader) {step : Step} (h : step.scansOn r.line = true) :
    (r.Gains step → r.position < (r.perform step).after.position) ∧
      (¬ r.Gains step → (r.perform step).after.position = r.position) := by
  obtain ⟨hcursor, hnonneg⟩ := r.cursor_after_scan h
  obtain ⟨hline, hraised⟩ := r.line_after_scan h
  rw [Gains, ← hraised, Position.lt_iff]
  simp only [position, Position.mk.injEq]
  omega

theorem position_lt_iff_gains (r : Reader) {step : Step} (h : step.scansOn r.line = true) :
    r.position < (r.perform step).after.position ↔ r.Gains step := by
  obtain ⟨hgains, hidles⟩ := r.position_after_scan h
  refine ⟨fun hlt => ?_, hgains⟩
  by_contra hnot
  exact absurd (hidles hnot) hlt.ne'

theorem position_le_after_scan (r : Reader) {step : Step} (h : step.scansOn r.line = true) :
    r.position ≤ (r.perform step).after.position := by
  obtain ⟨hgains, hidles⟩ := r.position_after_scan h
  by_cases hg : r.Gains step
  · exact (hgains hg).le
  · exact (hidles hg).ge

theorem scansOn_cons {r : Reader} {step : Step} {steps : List Step} :
    r.scansOn (step :: steps) = true ↔
      step.scansOn r.line = true ∧ (r.perform step).after.scansOn steps = true :=
  Bool.and_eq_true_iff

theorem scansOn_append {r : Reader} {xs ys : List Step} :
    r.scansOn (xs ++ ys) = true ↔ r.scansOn xs = true ∧ (r.afterAll xs).scansOn ys = true := by
  induction xs generalizing r with
  | nil => simp [scansOn]
  | cons step xs ih => rw [List.cons_append, scansOn_cons, scansOn_cons, ih, and_assoc, afterAll_cons]

theorem position_le_afterAll {r : Reader} {steps : List Step} (h : r.scansOn steps = true) :
    r.position ≤ (r.afterAll steps).position := by
  induction steps generalizing r with
  | nil => exact le_refl _
  | cons step steps ih =>
    obtain ⟨hstep, hlater⟩ := scansOn_cons.1 h
    exact (r.position_le_after_scan hstep).trans (ih hlater)

theorem position_eq_iff_idles {r : Reader} {steps : List Step} (h : r.scansOn steps = true) :
    r.position = (r.afterAll steps).position ↔ r.Idles steps := by
  induction steps generalizing r with
  | nil => exact iff_of_true rfl trivial
  | cons step steps ih =>
    obtain ⟨hstep, hlater⟩ := scansOn_cons.1 h
    obtain ⟨hgains, hidles⟩ := r.position_after_scan hstep
    rw [afterAll_cons, Idles, ← ih hlater]
    by_cases hg : r.Gains step
    · have hlt := (hgains hg).trans_le (position_le_afterAll hlater)
      exact iff_of_false hlt.ne fun hnot => hnot.1 hg
    · rw [hidles hg]
      exact (and_iff_right hg).symm

theorem getElem?_stamps (r : Reader) (before after : List Step) :
    (r.stamps (before ++ after))[before.length]? = some (r.afterAll before).position := by
  induction before generalizing r with
  | nil => cases after <;> rfl
  | cons step before ih => exact ih _

theorem position_le_of_mem_stamps {r : Reader} {steps : List Step} (h : r.scansOn steps = true)
    {p : Position} (hp : p ∈ r.stamps steps) : r.position ≤ p := by
  induction steps generalizing r with
  | nil => exact (List.mem_singleton.1 hp).ge
  | cons step steps ih =>
    obtain ⟨hstep, hlater⟩ := scansOn_cons.1 h
    rcases List.mem_cons.1 hp with rfl | hp
    · exact le_refl _
    · exact (r.position_le_after_scan hstep).trans (ih hlater hp)

theorem pairwise_stamps {r : Reader} {steps : List Step} (h : r.scansOn steps = true) :
    (r.stamps steps).Pairwise (· ≤ ·) := by
  induction steps generalizing r with
  | nil => exact List.pairwise_singleton _ _
  | cons step steps ih =>
    obtain ⟨hstep, hlater⟩ := scansOn_cons.1 h
    refine List.pairwise_cons.2 ⟨fun p hp => ?_, ih hlater⟩
    exact (r.position_le_after_scan hstep).trans (position_le_of_mem_stamps hlater hp)

end Reader

/-- The positions that a scan goes through never descend, and two of them are equal just if nothing was
gained in between. -/
theorem Origin.stamps_of_scan_ascend (origin : Origin) (past steps : List Step)
    (h : (origin.reader past).scansOn steps = true) :
    let r := origin.reader past
    (∀ p q : Position,
      (p ≤ q ↔ toLex (p.line, p.offset) ≤ toLex (q.line, q.offset)) ∧
      (p < q ↔ toLex (p.line, p.offset) < toLex (q.line, q.offset)) ∧
      (p ≤ q ∨ q ≤ p) ∧ (compare p q = .eq ↔ p = q)) ∧
    (r.stamps steps).Pairwise (· ≤ ·) ∧
    (∀ before after, steps = before ++ after →
      (r.stamps steps)[before.length]? = some (r.afterAll before).position) ∧
    (∀ before step after, steps = before ++ step :: after →
      ((r.afterAll before).position < (r.afterAll (before ++ [step])).position ↔
        (r.afterAll before).Gains step)) ∧
    ∀ before between after, steps = before ++ between ++ after →
      ((r.afterAll before).position = (r.afterAll (before ++ between)).position ↔
        (r.afterAll before).Idles between) := by
  intro r
  refine ⟨fun p q => ⟨Position.le_iff_toLex, Position.lt_iff_toLex, le_total p q,
    Position.compare_eq_iff⟩, Reader.pairwise_stamps h, ?_, ?_, ?_⟩
  · rintro before after rfl
    exact r.getElem?_stamps before after
  · rintro before step after rfl
    have hstep := (Reader.scansOn_cons.1 (Reader.scansOn_append.1 h).2).1
    rw [Reader.afterAll_append]
    exact (r.afterAll before).position_lt_iff_gains hstep
  · rintro before between after rfl
    rw [List.append_assoc] at h
    have hbetween := (Reader.scansOn_append.1 (Reader.scansOn_append.1 h).2).1
    rw [Reader.afterAll_append]
    exact Reader.position_eq_iff_idles hbetween

/-- A line break, a block that is refused, the same line once more, a move past the end, and a note on
a closed reader. -/
theorem stamps_around_line_break :
    ((Origin.text ['\n', 'a', 'b']).reader [.mark 0]).scansOn
      [.next, .setLine 1, .readInto ['-'] 0 2, .setLine 1, .skip 5, .close, .read, .setLine 4] = true ∧
    [Position.mk 0 0, ⟨0, 1⟩, ⟨1, 1⟩, ⟨1, 1⟩, ⟨1, 1⟩, ⟨1, 3⟩, ⟨1, 3⟩, ⟨1, 3⟩, ⟨4, 3⟩].Pairwise (· ≤ ·) ∧
    ((Origin.text ['\n', 'a', 'b']).reader [.mark 0, .next, .setLine 1]).Idles
      [.readInto ['-'] 0 2, .setLine 1] ∧
    ¬ ((Origin.text ['\n', 'a', 'b']).reader [.mark 0]).Idles [.next, .setLine 1] := by
  have hscan : ((Origin.text ['\n', 'a', 'b']).reader [.mark 0]).scansOn
      [.next, .setLine 1, .readInto ['-'] 0 2, .setLine 1, .skip 5, .close, .read, .setLine 4] = true :=
    by decide
  obtain ⟨-, hstamps, -, -, hbetween⟩ :=
    (Origin.text ['\n', 'a', 'b']).stamps_of_scan_ascend [.mark 0] _ hscan
  refine ⟨hscan, hstamps, (hbetween [.next, .setLine 1] _ _ rfl).1 rfl, fun hidles => ?_⟩
  exact absurd ((hbetween [] [.next, .setLine 1] _ rfl).2 hidles) (by decide)

end Retrace
