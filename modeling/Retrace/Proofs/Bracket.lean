import Retrace.Proofs.WayBack
import Mathlib.Data.List.Induction
import Mathlib.Data.List.Infix

/-! Speculation: a mark, a well-nested body, and a way back. The body may lose marks of its own
and of what encloses it; how high it climbs tells which. What it does to the ledger below
it is to raise it by its summit, and nothing else. -/
namespace Retrace
namespace Step

/-- A mark that every open reader grants. -/
def addsMark : Step → Bool
  | .mark limit => decide (0 ≤ limit)
  | _ => false

def takesMark : Step → Bool
  | .rewind | .release => true
  | _ => false

/-- A call that replaces neither the text nor the line. -/
def staysInside : Step → Bool
  | .load _ | .clear | .close | .setLine _ => false
  | _ => true

def added (body : List Step) : Nat := body.countP (·.addsMark)

def taken (body : List Step) : Nat := body.countP (·.takesMark)

/-- The largest excess of marks added over marks taken in any first part of a body. -/
structure Summit (body : List Step) (summit : Nat) : Prop where
  below : ∀ part, part <+: body → added part ≤ taken part + summit
  reached : ∃ part, part <+: body ∧ added part = taken part + summit

/-- Calls that take off all marks they add by the end, and no others before. -/
structure Nested (body : List Step) : Prop where
  inside : ∀ step ∈ body, step.staysInside = true
  matched : ∀ part, part <+: body → taken part ≤ added part
  balanced : taken body = added body

namespace Summit

variable {body : List Step} {step : Step} {m n : Nat}

theorem nil : Summit [] 0 where
  below part hp := by
    rw [List.prefix_nil.1 hp]
    exact Nat.le_refl _
  reached := ⟨[], List.prefix_refl _, rfl⟩

theorem unique (hm : Summit body m) (hn : Summit body n) : m = n := by
  obtain ⟨p, hp, hpm⟩ := hm.reached
  obtain ⟨q, hq, hqn⟩ := hn.reached
  have hpn := hn.below p hp
  have hqm := hm.below q hq
  omega

theorem concat {k : Nat} (hm : Summit body m) (hn : max m k = n)
    (hk : added (body ++ [step]) ≤ taken (body ++ [step]) + n)
    (hr : m < k → added (body ++ [step]) = taken (body ++ [step]) + k) :
    Summit (body ++ [step]) n where
  below part hp := by
    rcases List.prefix_concat_iff.1 hp with rfl | hp
    · exact hk
    · have := hm.below part hp
      omega
  reached := by
    by_cases hlt : m < k
    · exact ⟨body ++ [step], List.prefix_refl _, by have := hr hlt; omega⟩
    · obtain ⟨part, hp, hr⟩ := hm.reached
      exact ⟨part, hp.trans (List.prefix_append _ _), by omega⟩

end Summit
end Step

theorem Marks.newest_of_held_cons {m : Marks} {cursor : Nat} {older : List Nat}
    (h : m.held = cursor :: older) : m.newest = .known cursor := by
  simp [newest, h]

namespace Reader

variable {r : Reader} {text : List Char}

theorem text_perform_of_inside (r : Reader) {step : Step} (h : step.staysInside = true) :
    (r.perform step).after.text = r.text := by
  rw [text_perform]
  cases step <;> first | rfl | cases h

theorem line_perform_of_inside (r : Reader) {step : Step} (h : step.staysInside = true) :
    (r.perform step).after.line = r.line := by
  rw [line_perform]
  cases step <;> first | rfl | cases h

theorem afterAll_of_inside (r : Reader) {steps : List Step}
    (h : ∀ step ∈ steps, step.staysInside = true) :
    (r.afterAll steps).text = r.text ∧ (r.afterAll steps).line = r.line := by
  induction steps generalizing r with
  | nil => exact ⟨rfl, rfl⟩
  | cons step steps ih =>
    have hstep := h step List.mem_cons_self
    have hsteps := ih (r.perform step).after fun s hs => h s (List.mem_cons_of_mem _ hs)
    rw [text_perform_of_inside r hstep, line_perform_of_inside r hstep] at hsteps
    exact hsteps

theorem change_of_inside (ht : r.text = some text) {step : Step} (h : step.staysInside = true) :
    r.change step =
      if step.addsMark then .push r.cursor else if step.takesMark then .drop else .keep := by
  have hc : r.isClosed = false := by simp [isClosed, ht]
  cases step with
  | mark limit => simp [change, Step.addsMark, Step.takesMark, isOk_answer_mark, hc]
  | rewind | release => simp [change, Step.addsMark, Step.takesMark, hc]
  | load | clear | close | setLine => cases h
  | _ => rfl

/-- Calls that take off no mark of the ledger below put their own marks on top of it, and raise
it to their summit. -/
theorem outstanding_of_matched (ht : r.text = some text) {base : Ledger}
    (hbase : base.raise 0 = base) {body : List Step}
    (hinside : ∀ step ∈ body, step.staysInside = true)
    (hmatched : ∀ part, part <+: body → Step.taken part ≤ Step.added part) :
    ∃ top summit, r.outstanding base body = top ++ base.raise summit ∧
      top.length + Step.taken body = Step.added body ∧ Step.Summit body summit := by
  induction body using List.reverseRecOn with
  | nil => exact ⟨[], 0, hbase.symm, rfl, .nil⟩
  | append_singleton body step ih =>
    obtain ⟨top, m, hledger, hlen, hm⟩ := ih (fun s hs => hinside s (List.mem_append_left _ hs))
      fun part hp => hmatched part (hp.trans (List.prefix_append _ _))
    have hstep := hinside step (List.mem_append_right _ List.mem_cons_self)
    have htext : (r.afterAll body).text = some text := by
      rw [(r.afterAll_of_inside fun s hs => hinside s (List.mem_append_left _ hs)).1, ht]
    have hwhole := hmatched (body ++ [step]) (List.prefix_refl _)
    have hadded : Step.added (body ++ [step]) = Step.added body + Step.added [step] :=
      List.countP_append
    have htaken : Step.taken (body ++ [step]) = Step.taken body + Step.taken [step] :=
      List.countP_append
    simp only [outstanding_append, hledger, outstanding, change_of_inside htext hstep]
    by_cases hadds : step.addsMark = true
    · have htakes : step.takesMark = false := by cases step <;> first | rfl | cases hadds
      have ha : Step.added [step] = 1 := by simp [Step.added, hadds]
      have hk : Step.taken [step] = 0 := by simp [Step.taken, htakes]
      refine ⟨{ cursor := (r.afterAll body).cursor } :: top.raise 1, max m (top.length + 1),
        ?_, ?_, ?_⟩
      · rw [if_pos hadds]
        simp [Ledger.change, Ledger.push, Ledger.raise_append, Ledger.raise_raise, Nat.max_comm,
          Nat.add_comm]
      · simp only [List.length_cons, Ledger.length_raise]
        omega
      · exact hm.concat rfl (by omega) fun _ => by omega
    · have ha : Step.added [step] = 0 := by simp [Step.added, hadds]
      have hbelow := hm.below body (List.prefix_refl _)
      have hsummit : Step.Summit (body ++ [step]) m :=
        hm.concat (Nat.max_self m) (by omega) fun h => absurd h (Nat.lt_irrefl m)
      rw [if_neg hadds]
      by_cases htakes : step.takesMark = true
      · have hk : Step.taken [step] = 1 := by simp [Step.taken, htakes]
        -- a call that took a mark of the ledger below would be one too many
        cases top with
        | nil => simp only [List.length_nil] at hlen; omega
        | cons o top =>
          refine ⟨top, m, ?_, ?_, hsummit⟩
          · rw [if_pos htakes]
            rfl
          · simp only [List.length_cons] at hlen
            omega
      · have hk : Step.taken [step] = 0 := by simp [Step.taken, htakes]
        refine ⟨top, m, ?_, by omega, hsummit⟩
        rw [if_neg htakes]
        rfl

/-- A mark and a nested body leave that mark on top, with the summit of the body above it. -/
theorem outstanding_of_nested (ht : r.text = some text) (g : Ledger) {limit : Int} (hl : 0 ≤ limit)
    {body : List Step} (hbody : Step.Nested body) {summit : Nat} (hs : Step.Summit body summit) :
    r.outstanding g (.mark limit :: body) = ⟨r.cursor, summit⟩ :: g.raise (summit + 1) := by
  have hmark : r.change (.mark limit) = .push r.cursor := by
    rw [change_of_inside ht rfl]
    simp [Step.addsMark, hl]
  have hbase : (g.push r.cursor).raise 0 = g.push r.cursor := by
    simp [Ledger.push, Ledger.raise_raise]
  have htext : (r.perform (.mark limit)).after.text = some text := by
    rw [text_perform_of_inside r rfl, ht]
  obtain ⟨top, m, hledger, hlen, hm⟩ :=
    outstanding_of_matched htext hbase hbody.inside hbody.matched
  have htop : top = [] := List.length_eq_zero_iff.1 (by have := hbody.balanced; omega)
  rw [outstanding, hmark, Ledger.change, hledger, htop, hm.unique hs]
  simp [Ledger.push, Ledger.raise_raise]

theorem marks_way_back (ht : r.text = some text) :
    r.rewind.after.marks = r.marks.drop ∧ r.release.after.marks = r.marks.drop := by
  rw [after_rewind_of_open ht, after_release_of_open ht]
  exact ⟨rfl, rfl⟩

end Reader

namespace Origin

variable {origin : Origin} {past body : List Step} {text : List Char} {limit : Int} {summit : Nat}

theorem text_and_line_bracket (origin : Origin) (past : List Step) (limit : Int)
    (hinside : ∀ step ∈ body, step.staysInside = true) :
    (origin.reader (past ++ .mark limit :: body)).text = (origin.reader past).text ∧
      (origin.reader (past ++ .mark limit :: body)).line = (origin.reader past).line := by
  have hall : ∀ step ∈ Step.mark limit :: body, step.staysInside = true := by
    intro step hm
    rcases List.mem_cons.1 hm with rfl | hm
    · rfl
    · exact hinside step hm
  rw [reader_append]
  exact (origin.reader past).afterAll_of_inside hall

theorem outstanding_bracket (ht : (origin.reader past).text = some text) (hl : 0 ≤ limit)
    (hbody : Step.Nested body) (hs : Step.Summit body summit) :
    origin.outstanding (past ++ .mark limit :: body) =
      ⟨(origin.reader past).cursor, summit⟩ :: (origin.outstanding past).raise (summit + 1) := by
  rw [outstanding, Reader.outstanding_append]
  exact Reader.outstanding_of_nested ht _ hl hbody hs

/-- Behind a mark and a nested body, that mark is held unless the body climbed too high, and
below it those older marks are held that had room for the whole climb. -/
theorem held_bracket (ht : (origin.reader past).text = some text) (hl : 0 ≤ limit)
    (hbody : Step.Nested body) (hs : Step.Summit body summit) :
    (origin.reader (past ++ .mark limit :: body)).marks.held =
      if origin.depth ≤ summit then []
      else (origin.reader past).cursor ::
        (origin.reader past).marks.held.take (origin.depth - (summit + 1)) := by
  rw [(origin.tracks _).held, (origin.tracks past).held, origin.depth_reader, origin.depth_reader,
    origin.outstanding_bracket ht hl hbody hs, Ledger.known_cons, Ledger.known_raise]
  simp only [Outstanding.isLost, decide_eq_true_eq]

theorem held_drop_bracket (ht : (origin.reader past).text = some text) (hl : 0 ≤ limit)
    (hbody : Step.Nested body) (hs : Step.Summit body summit) :
    (origin.reader (past ++ .mark limit :: body)).marks.drop.held =
      (origin.reader past).marks.held.take
        (min (origin.reader past).marks.held.length (origin.depth - 1 - summit)) := by
  rw [Marks.held_drop, origin.held_bracket ht hl hbody hs, Nat.min_comm, ← List.take_eq_take_min]
  split
  · have hroom : origin.depth - 1 - summit = 0 := by omega
    rw [hroom, List.take_zero, List.tail_nil]
  · have hroom : origin.depth - (summit + 1) = origin.depth - 1 - summit := by omega
    rw [hroom, List.tail_cons]

theorem height_drop_bracket (ht : (origin.reader past).text = some text) (hl : 0 ≤ limit)
    (hbody : Step.Nested body) (hs : Step.Summit body summit)
    (hc : origin.CountsLost (past ++ .mark limit :: body)) :
    (origin.reader (past ++ .mark limit :: body)).marks.drop.height =
      (origin.reader past).marks.height := by
  have hstart : origin.CountsLost past := fun p hp => hc p (hp.trans (List.prefix_append _ _))
  rw [Marks.height_drop, origin.height_marks hc, origin.outstanding_bracket ht hl hbody hs,
    List.length_cons, Ledger.length_raise, Nat.add_sub_cancel, origin.height_marks hstart]

end Origin

/-- A mark, a body that takes off what it adds, and a way back lead to where the mark was made, unless the
body needs the whole stack for its own marks. Of the older marks just those stay that had room. -/
theorem Origin.mark_body_way_back (origin : Origin) (past body : List Step) (limit : Int)
    (summit : Nat) (ho : (origin.reader past).isClosed = false) (hl : 0 ≤ limit)
    (hbody : Step.Nested body) (hs : Step.Summit body summit) :
    let start := origin.reader past
    let finish := origin.reader (past ++ .mark limit :: body)
    let kept := start.marks.held.take (min start.marks.held.length (origin.depth - 1 - summit))
    (summit < origin.depth → finish.LeadsTo start.status.offset (some start.status.offset) ∧
      finish.rewind.after.text = start.text ∧ finish.rewind.after.line = start.line) ∧
    (origin.depth ≤ summit → origin.CountsLost (past ++ .mark limit :: body) →
      finish.RefusesLost origin.depth) ∧
    (finish.rewind.after.marks.held = kept ∧ finish.release.after.marks.held = kept) ∧
    (finish.rewind.after.status.marksHeld =
        min start.status.marksHeld (origin.depth - 1 - summit) ∧
      finish.release.after.status.marksHeld =
        min start.status.marksHeld (origin.depth - 1 - summit)) ∧
    (origin.CountsLost (past ++ .mark limit :: body) →
      finish.rewind.after.marks.height = start.marks.height ∧
      finish.release.after.marks.height = start.marks.height) := by
  intro start finish kept
  obtain ⟨text, ht⟩ : ∃ text, start.text = some text := Reader.exists_text_of_open ho
  have hledger := origin.outstanding_bracket ht hl hbody hs
  have hheld := origin.held_bracket ht hl hbody hs
  obtain ⟨hsame, hline⟩ := origin.text_and_line_bracket past limit hbody.inside
  have htext : finish.text = some text := hsame.trans ht
  obtain ⟨hrewind, hrelease⟩ := Reader.marks_way_back htext
  have hkept : finish.marks.drop.held = kept := origin.held_drop_bracket ht hl hbody hs
  refine ⟨fun hlt => ⟨?_, ?_, ?_⟩, fun hle hc => ?_, ?_, ?_, fun hc => ?_⟩
  · rw [if_neg (Nat.not_le.2 hlt)] at hheld
    exact Reader.leadsTo_known htext (Marks.newest_of_held_cons hheld)
  · rw [Reader.after_rewind_of_open htext]
    exact hsame
  · rw [Reader.after_rewind_of_open htext]
    exact hline
  · have hnewest := origin.newest_marks hc
    rw [hledger, Ledger.newest, Outstanding.isLost, if_pos (decide_eq_true hle)] at hnewest
    rw [← origin.depth_reader (past ++ .mark limit :: body)]
    exact Reader.refusesLost htext hnewest
  · rw [hrewind, hrelease]
    exact ⟨hkept, hkept⟩
  · have hcount : kept.length = min start.marks.held.length (origin.depth - 1 - summit) := by
      rw [List.length_take, Nat.min_eq_left (Nat.min_le_left _ _)]
    simp only [Reader.status_marksHeld, hrewind, hrelease, hkept]
    exact ⟨hcount, hcount⟩
  · have hheight := origin.height_drop_bracket ht hl hbody hs hc
    rw [hrewind, hrelease]
    exact ⟨hheight, hheight⟩

/-- A body that holds one mark of its own needs a stack of depth two. -/
theorem way_back_behind_one_inner_mark :
    Step.Nested [.read, .mark 0, .read, .rewind] ∧
    Step.Summit [.read, .mark 0, .read, .rewind] 1 ∧
    ((Origin.tuned { markDepth := 2 }).reader
      ([.load ['a', 'b', 'c'], .read] ++ .mark 7 :: [.read, .mark 0, .read, .rewind])).LeadsTo
        1 (some 1) ∧
    ((Origin.text ['a', 'b', 'c']).reader
      ([.read] ++ .mark 7 :: [.read, .mark 0, .read, .rewind])).RefusesLost 1 := by
  have hbody : Step.Nested [.read, .mark 0, .read, .rewind] := by
    refine ⟨by decide, fun part hp => ?_, by decide⟩
    have hall : ∀ part ∈ List.inits [Step.read, .mark 0, .read, .rewind],
        Step.taken part ≤ Step.added part := by decide
    exact hall part ((List.mem_inits _ _).2 hp)
  have hs : Step.Summit [.read, .mark 0, .read, .rewind] 1 := by
    refine ⟨fun part hp => ?_, [.read, .mark 0], ⟨[.read, .rewind], rfl⟩, by decide⟩
    have hall : ∀ part ∈ List.inits [Step.read, .mark 0, .read, .rewind],
        Step.added part ≤ Step.taken part + 1 := by decide
    exact hall part ((List.mem_inits _ _).2 hp)
  have hdeep := (Origin.tuned { markDepth := 2 }).mark_body_way_back [.load ['a', 'b', 'c'], .read]
    _ 7 1 rfl (by decide) hbody hs
  have hflat := (Origin.text ['a', 'b', 'c']).mark_body_way_back [.read]
    _ 7 1 rfl (by decide) hbody hs
  exact ⟨hbody, hs, (hdeep.1 (by decide)).1,
    hflat.2.1 (by decide) (Origin.countsLost_of_length (by decide))⟩

end Retrace
