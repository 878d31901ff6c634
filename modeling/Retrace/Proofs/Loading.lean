import Retrace.Proofs.WayBack

/-! Loading a text. Of all that was before, only the depth of the stack and the line are kept, so
two readers that have these in common cannot be told apart by anything that happens afterwards, and
neither of them from a reader that has just been made. -/
namespace Retrace
namespace Reader

variable {r s : Reader} {old old' : List Char}

/-- A reader at the start of a text, where nothing has ever been marked: every way back leads to the
start, and there is nothing to take off. -/
structure Untouched (r : Reader) (text : List Char) : Prop where
  contents : r.snapshot = .ok text
  cursor : r.cursor = 0
  marks : r.marks.held = [] ∧ r.marks.lost = 0
  leadsTo : r.LeadsTo 0 none
  kept : r.reset.after = r ∧ r.rewind.after = r ∧ r.release.after = r

def reloaded (r : Reader) (text : List Char) : Reader := ⟨some text, 0, { depth := r.marks.depth }, r.line⟩

theorem untouched_reloaded (r : Reader) (text : List Char) : (r.reloaded text).Untouched text where
  contents := rfl
  cursor := rfl
  marks := ⟨rfl, rfl⟩
  leadsTo := leadsTo_start rfl rfl
  kept := ⟨rfl, rfl, rfl⟩

theorem perform_load_of_open (ht : r.text = some old) (text : List Char) :
    r.perform (.load text) = ⟨.ok .unit, r.reloaded text, [.cleared, .loaded text.length]⟩ := by
  rw [perform, load, withText_of_open ht]
  rfl

theorem turns_load_eq_iff (hr : r.text = some old) (hs : s.text = some old') (text : List Char) :
    (∀ later, r.turns (.load text :: later) = s.turns (.load text :: later)) ↔
      r.marks.depth = s.marks.depth ∧ r.line = s.line := by
  simp only [turns_cons, perform_load_of_open hr, perform_load_of_open hs]
  constructor
  · intro h
    have hafter : r.reloaded text = s.reloaded text :=
      congrArg Turn.after (List.cons.inj (h [])).1
    exact ⟨congrArg (·.marks.depth) hafter, congrArg (·.line) hafter⟩
  · rintro ⟨hdepth, hline⟩ later
    have hsame : r.reloaded text = s.reloaded text := by rw [reloaded, reloaded, hdepth, hline]
    rw [hsame]

/-- The settings that a new reader needs to have the depth and the line of an old one. -/
def settings (r : Reader) : Settings where
  markDepth := r.marks.depth
  firstLine := r.line

theorem WellFormed.effectiveDepth_settings (hr : r.WellFormed) :
    r.settings.effectiveDepth = r.marks.depth := Nat.max_eq_left hr.depth_pos

end Reader

/-- Readers that load the same text have one future iff they have the same depth and line, whatever their
pasts; it is that of a new reader with these settings. -/
theorem Origin.loading_forgets_all_but_depth_and_line (origin other : Origin)
    (past past' : List Step) (ho : (origin.reader past).isClosed = false)
    (ho' : (other.reader past').isClosed = false) (text : List Char) :
    let r := origin.reader past
    let s := other.reader past'
    ((∀ later, r.turns (.load text :: later) = s.turns (.load text :: later)) ↔
      r.status.markDepth = s.status.markDepth ∧ r.status.line = s.status.line) ∧
    (∀ later, r.turns (.load text :: later) =
      (tuned r.settings).build.after.turns (.load text :: later)) ∧
    ((r.perform (.load text)).answer = .ok .unit ∧ (s.perform (.load text)).answer = .ok .unit) ∧
    ((r.perform (.load text)).after.Untouched text ∧ (s.perform (.load text)).after.Untouched text) ∧
    (r.perform .clear).after = (r.perform (.load [])).after ∧
    (Origin.text text).build.after = blank.reader [.load text] := by
  intro r s
  obtain ⟨old, hr⟩ := Reader.exists_text_of_open ho
  obtain ⟨old', hs⟩ := Reader.exists_text_of_open ho'
  have hload := Reader.perform_load_of_open hr text
  have hload' := Reader.perform_load_of_open hs text
  refine ⟨Reader.turns_load_eq_iff hr hs text, ?_, ?_, ?_, r.after_clear, rfl⟩
  · have hnew : (tuned r.settings).build.after.text = some [] := rfl
    have hdepth := (origin.wellFormed_reader past).effectiveDepth_settings
    exact (Reader.turns_load_eq_iff hr hnew text).2 ⟨hdepth.symm, rfl⟩
  · rw [hload, hload']
    exact ⟨rfl, rfl⟩
  · rw [hload, hload']
    exact ⟨r.untouched_reloaded text, s.untouched_reloaded text⟩

/-- A reader that has lost a mark, and one that has only been told its line. -/
theorem loading_forgets_lost_mark :
    ((Origin.tuned { markDepth := 2 }).reader
        [.load ['a', 'b'], .mark 0, .read, .mark 0, .mark 0, .rewind, .setLine 7]).isClosed = false ∧
    ((Origin.tuned { markDepth := 2, firstLine := 7 }).reader []).isClosed = false ∧
    (∀ later,
      ((Origin.tuned { markDepth := 2 }).reader
          [.load ['a', 'b'], .mark 0, .read, .mark 0, .mark 0, .rewind, .setLine 7]).turns
          (.load ['c'] :: later) =
        ((Origin.tuned { markDepth := 2, firstLine := 7 }).reader []).turns (.load ['c'] :: later)) ∧
    ((Origin.tuned { markDepth := 2 }).reader
      [.load ['a', 'b'], .mark 0, .read, .mark 0, .mark 0, .rewind, .setLine 7, .load ['c']]).Untouched
        ['c'] := by
  have hall := (Origin.tuned { markDepth := 2 }).loading_forgets_all_but_depth_and_line
    (.tuned { markDepth := 2, firstLine := 7 })
    [.load ['a', 'b'], .mark 0, .read, .mark 0, .mark 0, .rewind, .setLine 7] [] rfl rfl ['c']
  exact ⟨rfl, rfl, hall.1.2 ⟨rfl, rfl⟩, hall.2.2.2.1.1⟩

end Retrace
