import Retrace.Proofs.WayBack
import Mathlib.Data.List.Induction

/-! One history on two readers that differ in the depth of their stacks. The outstanding marks
were made at the same time and climbed as high in both, so the deeper stack loses fewer of
them; and until a way back is refused for a lost mark, nothing but the marks themselves
tells the two apart. -/
namespace Retrace

/-- The calls that go back to the newest mark or take it off. -/
def Step.usesMark : Step → Bool
  | .reset | .rewind | .release => true
  | _ => false

theorem Step.usesMark_of_onlyMoves {step : Step} (h : step.onlyMoves = true) :
    step.usesMark = false := by
  cases step <;> first | rfl | cases h

def Reply.refusesLost (reply : Reply) : Bool :=
  match reply.fault? with
  | some (.markLost ..) => true
  | _ => false

namespace Reader

/-- Two readers that are the same but for their marks. -/
structure Agree (r s : Reader) : Prop where
  text : s.text = r.text
  cursor : s.cursor = r.cursor
  line : s.line = r.line

namespace Agree

variable {r s : Reader}

theorem eq_relabel (h : Agree r s) : s = r.relabel s.marks r.line := by
  rcases s with ⟨text, cursor, marks, line⟩
  simp only [relabel, ← h.text, ← h.cursor, ← h.line]

/-- Readers that agree, also on the newest mark wherever that is used, reply alike and go on
agreeing. -/
theorem perform (h : Agree r s) {step : Step}
    (hn : step.usesMark = true → s.marks.newest = r.marks.newest ∧ r.marks.newest ≠ .lost) :
    (s.perform step).answer = (r.perform step).answer ∧
      Agree (r.perform step).after (s.perform step).after := by
  cases hm : step.onlyMoves with
  | true =>
    rw [h.eq_relabel, perform_relabel r _ hm fun _ => rfl]
    refine ⟨rfl, rfl, rfl, ?_⟩
    exact (moved_perform r hm).line.symm
  | false =>
    rcases r with ⟨text, cursor, own, line⟩
    rcases s with ⟨text', cursor', marks, line'⟩
    obtain ⟨rfl, rfl, rfl⟩ := h
    cases text' with
    | none =>
      cases step with
      | mark limit =>
        simp only [Reader.perform, mark, withText]
        split <;> exact ⟨rfl, rfl, rfl, rfl⟩
      | load | clear | close | reset | rewind | release | setLine => exact ⟨rfl, rfl, rfl, rfl⟩
      | _ => cases hm
    | some text =>
      have htarget : step.usesMark = true →
          ∃ cursor, marks.target? = some cursor ∧ own.target? = some cursor := by
        intro hu
        obtain ⟨heq, hne⟩ := hn hu
        cases ht : own.target? with
        | none => exact absurd (Marks.target?_eq_none_iff.1 ht) hne
        | some cursor => exact ⟨cursor, by rw [Marks.target?, heq]; exact ht, rfl⟩
      cases step with
      | load | clear | close | setLine => exact ⟨rfl, rfl, rfl, rfl⟩
      | mark limit =>
        simp only [Reader.perform, mark, withText]
        split <;> exact ⟨rfl, rfl, rfl, rfl⟩
      | reset =>
        obtain ⟨cursor, h, h'⟩ := htarget rfl
        simp only [Reader.perform, reset, withText, h, h']
        exact ⟨rfl, rfl, rfl, rfl⟩
      | rewind =>
        obtain ⟨cursor, h, h'⟩ := htarget rfl
        simp only [Reader.perform, rewind, withText, h, h']
        exact ⟨rfl, rfl, rfl, rfl⟩
      | release =>
        obtain ⟨heq, hne⟩ := hn rfl
        simp only at heq hne
        simp only [Reader.perform, release, withText, heq]
        cases ho : own.newest with
        | lost => exact absurd ho hne
        | absent | known => exact ⟨rfl, rfl, rfl, rfl⟩
      | _ => cases hm

theorem perform_of_not_usesMark (h : Agree r s) {step : Step} (hu : step.usesMark = false) :
    (s.perform step).answer = (r.perform step).answer ∧
      Agree (r.perform step).after (s.perform step).after :=
  h.perform fun hu' => by rw [hu] at hu'; cases hu'

theorem replies_of_not_usesMark (h : Agree r s) {steps : List Step}
    (hu : ∀ step ∈ steps, step.usesMark = false) :
    s.replies steps = r.replies steps ∧ Agree (r.afterAll steps) (s.afterAll steps) := by
  induction steps generalizing r s with
  | nil => exact ⟨rfl, h⟩
  | cons step steps ih =>
    obtain ⟨hanswer, hafter⟩ := h.perform_of_not_usesMark (hu step List.mem_cons_self)
    obtain ⟨hreplies, hfinish⟩ := ih hafter fun s hs => hu s (List.mem_cons_of_mem _ hs)
    refine ⟨?_, hfinish⟩
    rw [replies_cons, replies_cons, hanswer, hreplies]

end Agree
end Reader

namespace Ledger

/-- How high each mark climbed, newest first. -/
def peaks (g : Ledger) : List Nat := g.map (·.peak)

theorem length_peaks (g : Ledger) : g.peaks.length = g.length := List.length_map _

theorem lostCount_eq_countP_peaks (depth : Nat) (g : Ledger) :
    lostCount depth g = g.peaks.countP fun peak => decide (depth ≤ peak) := by
  rw [peaks, List.countP_map]
  rfl

theorem peaks_raise {g h : Ledger} (hp : g.peaks = h.peaks) (n : Nat) :
    (g.raise n).peaks = (h.raise n).peaks := by
  induction g generalizing h n with
  | nil =>
    cases h with
    | nil => rfl
    | cons => cases hp
  | cons o g ih =>
    cases h with
    | nil => cases hp
    | cons o' h =>
      obtain ⟨ho, hp⟩ := List.cons.inj hp
      have hrest := ih hp (n + 1)
      simp only [peaks] at ho hrest ⊢
      simp only [raise_cons, List.map_cons, ho, hrest]

theorem lostCount_le_of_peaks {g h : Ledger} (hp : g.peaks = h.peaks) {shallow deep : Nat}
    (hd : shallow ≤ deep) : lostCount deep g ≤ lostCount shallow h := by
  rw [lostCount_eq_countP_peaks, lostCount_eq_countP_peaks, hp]
  refine List.countP_mono_left fun peak _ hpeak => ?_
  rw [decide_eq_true_eq] at hpeak ⊢
  exact Nat.le_trans hd hpeak

theorem newest_lost_of_peaks {g h : Ledger} (hp : g.peaks = h.peaks) {shallow deep : Nat}
    (hd : shallow ≤ deep) (hn : g.newest deep = .lost) : h.newest shallow = .lost := by
  cases g with
  | nil => cases hn
  | cons o g =>
    cases h with
    | nil => cases hp
    | cons o' h =>
      have ho : o.peak = o'.peak := (List.cons.inj hp).1
      have hlost : deep ≤ o.peak := by
        by_contra hlt
        simp [newest, Outstanding.isLost, hlt] at hn
      have hlost' : shallow ≤ o'.peak := ho ▸ Nat.le_trans hd hlost
      simp [newest, Outstanding.isLost, hlost']

theorem newest_of_not_lost {g : Ledger} {shallow deep : Nat} (hd : shallow ≤ deep)
    (hn : g.newest shallow ≠ .lost) : g.newest deep = g.newest shallow := by
  cases g with
  | nil => rfl
  | cons o g =>
    have hkept : ¬ shallow ≤ o.peak := by
      intro hlost
      exact hn (by simp [newest, Outstanding.isLost, hlost])
    have hkept' : ¬ deep ≤ o.peak := fun hlost => hkept (Nat.le_trans hd hlost)
    simp [newest, Outstanding.isLost, hkept, hkept']

end Ledger

namespace Reader

theorem peaks_change {r s : Reader} (hc : s.isClosed = r.isClosed) {g h : Ledger}
    (hp : g.peaks = h.peaks) (step : Step) :
    (g.change (r.change step)).peaks = (h.change (s.change step)).peaks := by
  cases step with
  | mark limit =>
    simp only [change, isOk_answer_mark, hc]
    split
    · have hraised := Ledger.peaks_raise hp 1
      simp only [Ledger.peaks] at hraised
      simp only [Ledger.change, Ledger.push, Ledger.peaks, List.map_cons, hraised]
    · exact hp
  | rewind | release =>
    simp only [change, hc]
    split
    · exact hp
    · simp only [Ledger.change, Ledger.peaks, List.map_tail]
      exact congrArg List.tail hp
  | load | clear | close => rfl
  | _ => exact hp

theorem peaks_outstanding {r s : Reader} (hc : s.isClosed = r.isClosed) {g h : Ledger}
    (hp : g.peaks = h.peaks) (steps : List Step) :
    (r.outstanding g steps).peaks = (s.outstanding h steps).peaks ∧
      (s.afterAll steps).isClosed = (r.afterAll steps).isClosed := by
  induction steps generalizing r s g h with
  | nil => exact ⟨hp, hc⟩
  | cons step steps ih =>
    refine ih ?_ (peaks_change hc hp step)
    rw [isClosed_perform, isClosed_perform, hc]

/-- Only a way back on an open reader is refused for a lost mark, and it is just when the newest
mark is lost. -/
theorem refusesLost_perform_iff (r : Reader) (step : Step) :
    (r.perform step).answer.refusesLost = true ↔
      step.usesMark = true ∧ r.isClosed = false ∧ r.marks.newest = .lost := by
  rw [Reply.refusesLost, fault?_perform]
  cases hc : r.isClosed with
  | true =>
    cases step with
    | mark limit => by_cases hl : limit < 0 <;> simp [refusal, refusalIfClosed, hc, hl]
    | _ => simp [refusal, refusalIfClosed, refusalToUnread, refusalToGoBack, hc]
  | false =>
    cases step with
    | reset | rewind | release =>
      by_cases hn : r.marks.newest = .lost <;>
        simp [refusal, refusalToGoBack, hc, hn, Step.usesMark]
    | readInto dest offset max =>
      by_cases hf : dest.length < offset + max <;> simp [refusal, hc, hf, Step.usesMark]
    | unread count =>
      by_cases hu : r.cursor < count <;> simp [refusal, refusalToUnread, hc, hu, Step.usesMark]
    | unreadOne =>
      by_cases hu : r.cursor < 1 <;> simp [refusal, refusalToUnread, hc, hu, Step.usesMark]
    | mark limit =>
      by_cases hl : limit < 0 <;> simp [refusal, refusalIfClosed, hc, hl, Step.usesMark]
    | _ => simp [refusal, refusalIfClosed, hc, Step.usesMark]

theorem Agree.isClosed {r s : Reader} (h : Agree r s) : s.isClosed = r.isClosed :=
  congrArg Option.isNone h.text

theorem Agree.change {r s : Reader} (h : Agree r s) (step : Step) :
    s.change step = r.change step := by
  cases step with
  | mark => simp only [Reader.change, isOk_answer_mark, h.isClosed, h.cursor]
  | rewind | release => simp only [Reader.change, h.isClosed]
  | _ => rfl

theorem WellFormed.newest_ne_lost {r : Reader} (hr : r.WellFormed) {step : Step}
    (hu : step.usesMark = true) (hn : (r.perform step).answer.refusesLost = false) :
    r.marks.newest ≠ .lost := by
  intro hlost
  cases hc : r.isClosed with
  | true =>
    have ht : r.text = none := isClosed_iff.1 hc
    have habsent := Marks.newest_eq_absent_iff.2 ⟨hr.held_closed ht, hr.lost_closed ht⟩
    rw [hlost] at habsent
    cases habsent
  | false =>
    have hrefused := (refusesLost_perform_iff r step).2 ⟨hu, hc, hlost⟩
    rw [hn] at hrefused
    cases hrefused

end Reader

section

variable {shallow deep : Settings} {steps : List Step}

theorem Origin.peaks_outstanding (shallow deep : Settings) (steps : List Step) :
    ((tuned deep).outstanding steps).peaks = ((tuned shallow).outstanding steps).peaks ∧
      ((tuned shallow).reader steps).isClosed = ((tuned deep).reader steps).isClosed := by
  have hopen : (Reader.blank shallow).isClosed = (Reader.blank deep).isClosed := rfl
  exact Reader.peaks_outstanding hopen rfl steps

theorem Origin.CountsLost.deeper (hc : (tuned shallow).CountsLost steps)
    (hd : shallow.effectiveDepth ≤ deep.effectiveDepth) : (tuned deep).CountsLost steps := by
  intro past hp
  have hp' := (peaks_outstanding shallow deep past).1
  exact Nat.le_trans (Ledger.lostCount_le_of_peaks hp' hd) (hc past hp)

theorem Origin.length_outstanding (shallow deep : Settings) (steps : List Step) :
    ((tuned deep).outstanding steps).length = ((tuned shallow).outstanding steps).length := by
  have hp := congrArg List.length (peaks_outstanding shallow deep steps).1
  rwa [Ledger.length_peaks, Ledger.length_peaks] at hp

theorem Origin.length_held_le_deeper (hd : shallow.effectiveDepth ≤ deep.effectiveDepth) :
    ((tuned shallow).reader steps).marks.held.length ≤
      ((tuned deep).reader steps).marks.held.length := by
  have hshallow := (tuned shallow).tracks steps
  have hdeep := (tuned deep).tracks steps
  have hlost := Ledger.lostCount_le_of_peaks (peaks_outstanding shallow deep steps).1 hd
  have hlen := length_outstanding shallow deep steps
  have hs := hshallow.sorted.length_known_add_lostCount shallow.effectiveDepth
  have ht := hdeep.sorted.length_known_add_lostCount deep.effectiveDepth
  rw [hshallow.held, hdeep.held, depth_reader, depth_reader]
  change (Ledger.known shallow.effectiveDepth _).length ≤
    (Ledger.known deep.effectiveDepth _).length
  omega

/-- A way back that the deeper stack refuses is refused by the other one too, wherever the
cursors are by then. -/
theorem Origin.refusesLost_of_deeper (hd : shallow.effectiveDepth ≤ deep.effectiveDepth)
    (hc : (tuned shallow).CountsLost steps) {step : Step}
    (h : (((tuned deep).reader steps).perform step).answer.refusesLost = true) :
    (((tuned shallow).reader steps).perform step).answer.refusesLost = true := by
  rw [Reader.refusesLost_perform_iff] at h ⊢
  obtain ⟨hu, hopen, hlost⟩ := h
  rw [newest_marks (hc.deeper hd)] at hlost
  refine ⟨hu, ?_, ?_⟩
  · rw [(peaks_outstanding shallow deep steps).2]
    exact hopen
  · rw [newest_marks hc]
    exact Ledger.newest_lost_of_peaks (peaks_outstanding shallow deep steps).1 hd hlost

/-- Until a way back is refused for a lost mark, the two readers go through the history as one. -/
theorem Origin.agree_of_deeper (hd : shallow.effectiveDepth ≤ deep.effectiveDepth)
    (hl : deep.firstLine = shallow.firstLine) (hc : (tuned shallow).CountsLost steps)
    (hn : ∀ reply ∈ (tuned shallow).build.after.replies steps, reply.refusesLost = false) :
    (tuned deep).build.after.replies steps = (tuned shallow).build.after.replies steps ∧
      Reader.Agree ((tuned shallow).reader steps) ((tuned deep).reader steps) ∧
      (tuned deep).outstanding steps = (tuned shallow).outstanding steps := by
  induction steps using List.reverseRecOn with
  | nil => exact ⟨rfl, ⟨rfl, rfl, hl⟩, rfl⟩
  | append_singleton steps step ih =>
    rw [Reader.replies_append] at hn
    have hc' : (tuned shallow).CountsLost steps :=
      fun past hp => hc past (hp.trans (List.prefix_append _ _))
    obtain ⟨hreplies, hagree, hledger⟩ :=
      ih hc' fun reply hm => hn reply (List.mem_append_left _ hm)
    have hkept : (((tuned shallow).reader steps).perform step).answer.refusesLost = false :=
      hn _ (List.mem_append_right _ (List.mem_singleton.2 rfl))
    -- the newest mark is known to both stacks: the shallow one has just led back to it
    have hsame : step.usesMark = true →
        ((tuned deep).reader steps).marks.newest = ((tuned shallow).reader steps).marks.newest ∧
          ((tuned shallow).reader steps).marks.newest ≠ .lost := by
      intro hu
      have hne := ((tuned shallow).wellFormed_reader steps).newest_ne_lost hu hkept
      refine ⟨?_, hne⟩
      rw [newest_marks hc'] at hne ⊢
      rw [newest_marks (hc'.deeper hd), hledger]
      exact Ledger.newest_of_not_lost hd hne
    obtain ⟨hanswer, hafter⟩ := hagree.perform hsame
    refine ⟨?_, ?_, ?_⟩
    · rw [Reader.replies_append, Reader.replies_append, hreplies]
      exact congrArg (_ ++ [·]) hanswer
    · rw [reader_append, reader_append]
      exact hafter
    · unfold outstanding at hledger ⊢
      rw [Reader.outstanding_append, Reader.outstanding_append, hledger]
      exact congrArg (Ledger.change _) (hagree.change step)

end

/-- The same history on a shallow and on a deep stack: the deep one has lost no mark that the shallow one
has not, and up to the first refusal for a lost mark nobody can tell them apart. -/
theorem deeper_stack_loses_less (shallow deep : Settings)
    (hd : shallow.effectiveDepth ≤ deep.effectiveDepth) (hl : deep.firstLine = shallow.firstLine)
    (steps : List Step) (hc : (Origin.tuned shallow).CountsLost steps) :
    ((Origin.tuned deep).reader steps).marks.height =
        ((Origin.tuned shallow).reader steps).marks.height ∧
      ((Origin.tuned shallow).reader steps).status.marksHeld ≤
        ((Origin.tuned deep).reader steps).status.marksHeld ∧
      (∀ step, (((Origin.tuned deep).reader steps).perform step).answer.refusesLost = true →
        (((Origin.tuned shallow).reader steps).perform step).answer.refusesLost = true) ∧
      ((∀ reply ∈ (Origin.tuned shallow).build.after.replies steps, reply.refusesLost = false) →
        (Origin.tuned deep).build.after.replies steps =
            (Origin.tuned shallow).build.after.replies steps ∧
          Reader.Agree ((Origin.tuned shallow).reader steps) ((Origin.tuned deep).reader steps)) := by
  refine ⟨?_, ?_, ?_, ?_⟩
  · rw [Origin.height_marks (hc.deeper hd), Origin.height_marks hc]
    exact Origin.length_outstanding shallow deep steps
  · exact Origin.length_held_le_deeper hd
  · intro step
    exact Origin.refusesLost_of_deeper hd hc
  · intro hn
    obtain ⟨hreplies, hagree, -⟩ := Origin.agree_of_deeper hd hl hc hn
    exact ⟨hreplies, hagree⟩

/-- On stacks of depth one and two, a second mark and the way back to it look the same; the
way back to the first mark is refused on the shallow one alone. -/
theorem deeper_stack_loses_less_two_marks :
    ((Origin.tuned { markDepth := 2 }).build.after.replies
          [.load ['a', 'b', 'c'], .read, .mark 0, .read, .mark 0, .read, .rewind] =
        (Origin.tuned { markDepth := 1 }).build.after.replies
          [.load ['a', 'b', 'c'], .read, .mark 0, .read, .mark 0, .read, .rewind]) ∧
      (((Origin.tuned { markDepth := 1 }).reader
          [.load ['a', 'b', 'c'], .read, .mark 0, .read, .mark 0, .read, .rewind]).perform
          .rewind).answer.refusesLost = true ∧
      (((Origin.tuned { markDepth := 2 }).reader
          [.load ['a', 'b', 'c'], .read, .mark 0, .read, .mark 0, .read, .rewind]).perform
          .rewind).answer.refusesLost = false := by
  have hc : (Origin.tuned { markDepth := 1 }).CountsLost
      [.load ['a', 'b', 'c'], .read, .mark 0, .read, .mark 0, .read, .rewind] :=
    Origin.countsLost_of_length (by decide)
  have hall := deeper_stack_loses_less { markDepth := 1 } { markDepth := 2 } (by decide) rfl _ hc
  exact ⟨(hall.2.2.2 (by decide)).1, by decide, by decide⟩

end Retrace
