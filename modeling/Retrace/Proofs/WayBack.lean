import Retrace.Proofs.Ledger

/-! The way back of a reader is what the newest outstanding mark says, however many marks were
made, lost and taken off before: to its cursor, to the start where there is none, and
nowhere once it is lost. -/
namespace Retrace
namespace Ledger

/-- What a stack of some depth says of the newest outstanding mark. -/
def newest (depth : Nat) : Ledger → Marks.Newest
  | [] => .absent
  | o :: _ => if o.isLost depth then .lost else .known o.cursor

theorem countP_not_isLost {g : Ledger} (hg : g.Sorted) (depth : Nat) :
    g.countP (fun o => !o.isLost depth) = (known depth g).length := by
  have hsum := hg.length_known_add_lostCount depth
  have hall := List.length_eq_countP_add_countP (fun o : Outstanding => o.isLost depth) (l := g)
  have hnot : g.countP (fun o => !o.isLost depth) =
      g.countP fun o => decide (¬ o.isLost depth = true) := by simp
  rw [lostCount] at hsum
  omega

end Ledger

namespace Marks.Tracks

variable {m : Marks} {g : Ledger}

theorem newest_eq (h : Tracks m g) (hh : m.height = g.length) : m.newest = g.newest m.depth := by
  have hheld := h.held
  unfold height at hh
  cases g with
  | nil =>
    have hlost : m.lost = 0 := by simp only [List.length_nil] at hh; omega
    simp [newest, Ledger.newest, hheld, Ledger.known, hlost]
  | cons o older =>
    rw [Ledger.known_cons] at hheld
    cases ho : o.isLost m.depth with
    | true =>
      rw [ho, if_pos rfl] at hheld
      rw [hheld] at hh
      have hlost : m.lost ≠ 0 := by simp only [List.length_nil, List.length_cons] at hh; omega
      simp [newest, Ledger.newest, hheld, hlost, ho]
    | false =>
      rw [ho, if_neg Bool.false_ne_true] at hheld
      simp [newest, Ledger.newest, hheld, ho]

end Marks.Tracks

theorem Origin.newest_marks {origin : Origin} {steps : List Step} (hc : origin.CountsLost steps) :
    (origin.reader steps).marks.newest = (origin.outstanding steps).newest origin.depth := by
  rw [(origin.tracks steps).newest_eq (origin.height_marks hc), origin.depth_reader]

namespace Reader

/-- The ways back all lead to a cursor. The call that only takes a mark off answers
`released`, and does not move. -/
structure LeadsTo (r : Reader) (cursor : Nat) (released : Option Nat) : Prop where
  reset : r.reset.answer = .ok () ∧ r.reset.after.status.offset = cursor
  rewind : r.rewind.answer = .ok () ∧ r.rewind.after.status.offset = cursor
  release : r.release.answer = .ok released ∧ r.release.after.status.offset = r.status.offset

/-- The ways back are all refused, and the cursor stays. -/
structure RefusesLost (r : Reader) (depth : Nat) : Prop where
  reset : r.reset.answer = .error (.markLost "reset" depth) ∧
    r.reset.after.status.offset = r.status.offset
  rewind : r.rewind.answer = .error (.markLost "rewind" depth) ∧
    r.rewind.after.status.offset = r.status.offset
  release : r.release.answer = .error (.markLost "release_mark" depth) ∧
    r.release.after.status.offset = r.status.offset

variable {r : Reader} {text : List Char}

theorem leadsTo_start (ht : r.text = some text) (hm : r.marks.newest = .absent) :
    r.LeadsTo 0 none := by
  have htarget : r.marks.target? = some 0 := by simp [Marks.target?, hm]
  refine ⟨?_, ?_, ?_⟩
  · rw [reset_of_target ht htarget]
    exact ⟨rfl, rfl⟩
  · rw [rewind_of_target ht htarget]
    exact ⟨rfl, rfl⟩
  · simp [release, withText_of_open ht, hm]

theorem leadsTo_known (ht : r.text = some text) {cursor : Nat}
    (hm : r.marks.newest = .known cursor) : r.LeadsTo cursor (some cursor) := by
  have htarget : r.marks.target? = some cursor := by simp [Marks.target?, hm]
  refine ⟨?_, ?_, ?_⟩
  · rw [reset_of_target ht htarget]
    exact ⟨rfl, rfl⟩
  · rw [rewind_of_target ht htarget]
    exact ⟨rfl, rfl⟩
  · simp [release, withText_of_open ht, hm]

theorem refusesLost (ht : r.text = some text) (hm : r.marks.newest = .lost) :
    r.RefusesLost r.marks.depth := by
  have htarget : r.marks.target? = none := Marks.target?_eq_none_iff.2 hm
  refine ⟨?_, ?_, ?_⟩
  · rw [reset_of_lost ht htarget]
    exact ⟨rfl, rfl⟩
  · rw [rewind_of_lost ht htarget]
    exact ⟨rfl, rfl⟩
  · simp [release, withText_of_open ht, hm]

end Reader

/-- The three ways back go by the newest mark that was made and not taken off: to its cursor, to the
start where there is none, and nowhere if it is one of those that the stack has lost. -/
theorem Origin.way_back_of_newest_outstanding (origin : Origin) (steps : List Step)
    (hc : origin.CountsLost steps) (ho : (origin.reader steps).isClosed = false) :
    (origin.reader steps).status.marksHeld =
      (origin.outstanding steps).countP (fun o => !o.isLost origin.depth) ∧
    match origin.outstanding steps with
    | [] => (origin.reader steps).LeadsTo 0 none
    | o :: _ =>
      if o.isLost origin.depth then (origin.reader steps).RefusesLost origin.depth
      else (origin.reader steps).LeadsTo o.cursor (some o.cursor) := by
  have htracks := origin.tracks steps
  have hnewest := origin.newest_marks hc
  have hdepth := origin.depth_reader steps
  obtain ⟨text, ht⟩ := Reader.exists_text_of_open ho
  constructor
  · have hheld := congrArg List.length htracks.held
    rw [hdepth] at hheld
    rw [Ledger.countP_not_isLost htracks.sorted]
    exact hheld
  · cases hg : origin.outstanding steps with
    | nil =>
      rw [hg] at hnewest
      exact Reader.leadsTo_start ht hnewest
    | cons o older =>
      rw [hg, Ledger.newest] at hnewest
      cases hlost : o.isLost origin.depth with
      | true =>
        rw [hlost, if_pos rfl] at hnewest
        simp only [hlost, if_true]
        rw [← hdepth]
        exact Reader.refusesLost ht hnewest
      | false =>
        rw [hlost, if_neg Bool.false_ne_true] at hnewest
        simp only [hlost, Bool.false_eq_true, if_false]
        exact Reader.leadsTo_known ht hnewest

/-- On a stack of depth two, the first of three marks is lost, and stays so once the other
two are taken off. -/
theorem way_back_of_first_of_three :
    (Origin.tuned { markDepth := 2 }).CountsLost
        [.load ['a', 'b', 'c'], .read, .mark 0, .read, .mark 0, .read, .mark 0, .rewind, .release] ∧
    ((Origin.tuned { markDepth := 2 }).reader
        [.load ['a', 'b', 'c'], .read, .mark 0, .read, .mark 0, .read, .mark 0, .rewind,
          .release]).RefusesLost 2 := by
  have hc : (Origin.tuned { markDepth := 2 }).CountsLost
      [.load ['a', 'b', 'c'], .read, .mark 0, .read, .mark 0, .read, .mark 0, .rewind, .release] :=
    Origin.countsLost_of_length (by decide)
  exact ⟨hc, ((Origin.tuned { markDepth := 2 }).way_back_of_newest_outstanding _ hc rfl).2⟩

end Retrace
