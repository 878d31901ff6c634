import Retrace.Proofs.WellFormed

/-! The ledger of a history: every mark that was made and not yet taken off, however many there
are, each with the most marks that ever lay above it. A bounded stack is a view of the
ledger: it holds the newest marks, down to the first that is lost, and its count of lost
marks makes up for the rest as long as the count can be told. -/
namespace Retrace

/-- A mark that was made and not yet taken off. -/
structure Outstanding where
  cursor : Nat
  /-- The most marks that ever lay above it at one time. -/
  peak : Nat := 0
  deriving DecidableEq, Repr

/-- All outstanding marks, newest first, however many there are. -/
abbrev Ledger := List Outstanding

def Outstanding.isLost (depth : Nat) (o : Outstanding) : Bool := decide (depth ≤ o.peak)

namespace Ledger

/-- Put a number of further marks above all marks. -/
def raise (above : Nat) : Ledger → Ledger
  | [] => []
  | o :: older => { o with peak := max o.peak above } :: raise (above + 1) older

def push (g : Ledger) (cursor : Nat) : Ledger := { cursor } :: raise 1 g

def change (g : Ledger) : Change → Ledger
  | .keep => g
  | .push cursor => g.push cursor
  | .drop => g.tail
  | .clear => []

/-- The cursors of the newest marks, up to the first that is lost. -/
def known (depth : Nat) (g : Ledger) : List Nat :=
  (g.takeWhile fun o => !o.isLost depth).map (·.cursor)

def lostCount (depth : Nat) (g : Ledger) : Nat := g.countP (·.isLost depth)

/-- No mark had more above it than an older one. -/
def Sorted (g : Ledger) : Prop := g.Pairwise fun newer older => newer.peak ≤ older.peak

@[simp] theorem raise_nil (n : Nat) : raise n [] = [] := rfl
@[simp] theorem raise_cons (n : Nat) (o : Outstanding) (g : Ledger) :
    raise n (o :: g) = { o with peak := max o.peak n } :: raise (n + 1) g := rfl

@[simp] theorem length_raise (n : Nat) (g : Ledger) : (raise n g).length = g.length := by
  induction g generalizing n with
  | nil => rfl
  | cons o g ih => simp [ih]

theorem length_change_le (g : Ledger) (change : Change) :
    (g.change change).length ≤ g.length + 1 := by
  cases change <;> simp [Ledger.change, push]
  omega

theorem raise_append (n : Nat) (g older : Ledger) :
    raise n (g ++ older) = raise n g ++ raise (n + g.length) older := by
  induction g generalizing n with
  | nil => rfl
  | cons o g ih =>
    simp only [List.cons_append, raise_cons, ih, List.length_cons]
    rw [Nat.add_right_comm, Nat.add_assoc n]

theorem raise_raise (m n : Nat) (g : Ledger) : raise m (raise n g) = raise (max m n) g := by
  induction g generalizing m n with
  | nil => rfl
  | cons o g ih => simp [ih, Nat.max_assoc, Nat.max_comm m n, Nat.succ_max_succ]

theorem exists_le_of_mem_raise {n : Nat} {g : Ledger} {o : Outstanding} (h : o ∈ raise n g) :
    n ≤ o.peak ∧ ∃ o' ∈ g, o'.peak ≤ o.peak := by
  induction g generalizing n with
  | nil => simp at h
  | cons a g ih =>
    rcases List.mem_cons.1 h with rfl | h
    · exact ⟨Nat.le_max_right _ _, a, List.mem_cons_self, Nat.le_max_left _ _⟩
    · obtain ⟨hn, o', ho', hp⟩ := ih h
      exact ⟨by omega, o', List.mem_cons_of_mem _ ho', hp⟩

theorem Sorted.raise {g : Ledger} (hg : g.Sorted) (n : Nat) : (Ledger.raise n g).Sorted := by
  induction g generalizing n with
  | nil => exact .nil
  | cons a g ih =>
    obtain ⟨ha, hg⟩ := List.pairwise_cons.1 hg
    refine List.pairwise_cons.2 ⟨fun o ho => ?_, ih hg (n + 1)⟩
    obtain ⟨hn, o', ho', hp⟩ := exists_le_of_mem_raise ho
    have := ha o' ho'
    simp only
    omega

theorem Sorted.change {g : Ledger} (hg : g.Sorted) (change : Change) :
    (g.change change).Sorted := by
  cases change with
  | keep => exact hg
  | push cursor => exact List.pairwise_cons.2 ⟨fun _ _ => Nat.zero_le _, hg.raise 1⟩
  | drop => exact hg.tail
  | clear => exact .nil

theorem known_cons (depth : Nat) (o : Outstanding) (g : Ledger) :
    known depth (o :: g) = if o.isLost depth then [] else o.cursor :: known depth g := by
  cases h : o.isLost depth <;> simp [known, h]

theorem known_raise (depth n : Nat) (g : Ledger) :
    known depth (raise n g) = (known depth g).take (depth - n) := by
  induction g generalizing n with
  | nil => simp [known]
  | cons o g ih =>
    rw [raise_cons, known_cons, known_cons, ih]
    by_cases ho : depth ≤ o.peak
    · simp [Outstanding.isLost, ho, Nat.le_trans ho (Nat.le_max_left _ _)]
    · by_cases hn : depth ≤ n
      · simp [Outstanding.isLost, Nat.le_trans hn (Nat.le_max_right _ _), Nat.sub_eq_zero_of_le hn]
      · have hk : depth - n = depth - (n + 1) + 1 := by omega
        have hmax : ¬ depth ≤ max o.peak n := by omega
        simp [Outstanding.isLost, ho, hmax, hk]

theorem known_push {depth : Nat} (hd : 0 < depth) (g : Ledger) (cursor : Nat) :
    known depth (g.push cursor) = cursor :: (known depth g).take (depth - 1) := by
  rw [push, known_cons, known_raise]
  simp [Outstanding.isLost, Nat.not_le.2 hd]

theorem Sorted.all_lost {depth : Nat} {o : Outstanding} {g : Ledger} (hg : Sorted (o :: g))
    (ho : o.isLost depth = true) : ∀ older ∈ g, older.isLost depth = true := by
  intro older hm
  have := (List.pairwise_cons.1 hg).1 older hm
  simp only [Outstanding.isLost, decide_eq_true_eq] at ho ⊢
  omega

theorem known_eq_nil {depth : Nat} {g : Ledger} (h : ∀ o ∈ g, o.isLost depth = true) :
    known depth g = [] := by
  cases g with
  | nil => rfl
  | cons o g => simp [known_cons, h o List.mem_cons_self]

theorem Sorted.known_tail {g : Ledger} (hg : g.Sorted) (depth : Nat) :
    known depth g.tail = (known depth g).tail := by
  cases g with
  | nil => rfl
  | cons o g =>
    rw [known_cons]
    cases ho : o.isLost depth with
    | false => simp
    | true => simpa using known_eq_nil (hg.all_lost ho)

theorem Sorted.length_known_add_lostCount {g : Ledger} (hg : g.Sorted) (depth : Nat) :
    (known depth g).length + lostCount depth g = g.length := by
  induction g with
  | nil => rfl
  | cons o g ih =>
    have ih := ih hg.tail
    rw [known_cons]
    simp only [lostCount, List.countP_cons] at ih ⊢
    cases ho : o.isLost depth with
    | false => simp; omega
    | true =>
      have hall := hg.all_lost ho
      rw [known_eq_nil hall] at ih
      simp at ih ⊢
      omega

end Ledger

namespace Marks

theorem held_push {m : Marks} (h : m.held.length ≤ m.depth) (cursor : Nat) :
    (m.push cursor).held = cursor :: m.held.take (m.depth - 1) := by
  unfold push
  split
  · rename_i hfull
    simp [List.dropLast_eq_take, hfull]
  · simp [List.take_of_length_le (show m.held.length ≤ m.depth - 1 by omega)]

/-- How many marks are outstanding, as far as the stack has counted them. -/
def height (m : Marks) : Nat := m.held.length + m.lost

theorem height_push {m : Marks} (hd : 0 < m.depth) {cursor : Nat}
    (hl : m.held.length = m.depth → m.lost < Count.top) :
    (m.push cursor).height = m.height + 1 := by
  unfold push height
  split
  · rename_i hfull
    have : Count.add m.lost 1 = m.lost + 1 := Count.add_eq (hl hfull)
    simp only [List.length_cons, List.length_dropLast]
    omega
  · simp only [List.length_cons]
    omega

theorem height_drop (m : Marks) : m.drop.height = m.height - 1 := by
  unfold drop height
  split <;> simp_all

/-- The stack holds the marks of the ledger that are not lost. -/
structure Tracks (m : Marks) (g : Ledger) : Prop where
  sorted : g.Sorted
  held : m.held = g.known m.depth

namespace Tracks

variable {m : Marks} {g : Ledger}

theorem change (h : Tracks m g) (hd : 0 < m.depth) (hl : m.held.length ≤ m.depth)
    (change : Change) : Tracks (m.change change) (g.change change) where
  sorted := h.sorted.change change
  held := by
    rw [depth_change]
    cases change with
    | keep => exact h.held
    | push cursor =>
      rw [Marks.change, Ledger.change, held_push hl, Ledger.known_push hd, h.held]
    | drop => rw [Marks.change, Ledger.change, held_drop, h.sorted.known_tail, h.held]
    | clear => rfl

/-- As long as the count of lost marks can be told, no mark is forgotten. -/
theorem height_change (h : Tracks m g) (hd : 0 < m.depth) (hh : m.height = g.length)
    {change : Change} (hc : (g.change change).lostCount m.depth ≤ Count.top) :
    (m.change change).height = (g.change change).length := by
  cases change with
  | keep => exact hh
  | push cursor =>
    have hsum := h.sorted.length_known_add_lostCount m.depth
    have hsum' := (h.sorted.change (.push cursor)).length_known_add_lostCount m.depth
    have hlen : (g.push cursor).length = g.length + 1 := by simp [Ledger.push]
    simp only [Ledger.change, Ledger.known_push hd, List.length_cons, List.length_take,
      ← h.held, hlen] at hsum hsum' hc ⊢
    unfold height at hh
    rw [Marks.change, height_push hd fun hfull => by omega, height, hh]
  | drop => rw [Marks.change, Ledger.change, height_drop, hh, List.length_tail]
  | clear => rfl

end Tracks
end Marks

namespace Reader

/-- The ledger after a history that started with the ledger `g`. -/
def outstanding (r : Reader) (g : Ledger) : List Step → Ledger
  | [] => g
  | step :: steps => (r.perform step).after.outstanding (g.change (r.change step)) steps

theorem length_outstanding_le (r : Reader) (g : Ledger) (steps : List Step) :
    (r.outstanding g steps).length ≤ g.length + steps.length := by
  induction steps generalizing r g with
  | nil => exact Nat.le_refl _
  | cons step steps ih =>
    have h := ih (r.perform step).after (g.change (r.change step))
    have hg := Ledger.length_change_le g (r.change step)
    simp only [outstanding, List.length_cons]
    omega

theorem outstanding_append (r : Reader) (g : Ledger) (xs ys : List Step) :
    r.outstanding g (xs ++ ys) = (r.afterAll xs).outstanding (r.outstanding g xs) ys := by
  induction xs generalizing r g with
  | nil => rfl
  | cons step xs ih => exact ih _ _

theorem tracks_outstanding {r : Reader} {g : Ledger} (hr : r.WellFormed) (h : r.marks.Tracks g)
    (steps : List Step) : (r.afterAll steps).marks.Tracks (r.outstanding g steps) := by
  induction steps generalizing r g with
  | nil => exact h
  | cons step steps ih =>
    refine ih (hr.perform step) ?_
    rw [marks_perform hr]
    exact h.change hr.depth_pos hr.length_held (r.change step)

theorem height_outstanding {r : Reader} {g : Ledger} (hr : r.WellFormed) (h : r.marks.Tracks g)
    (hh : r.marks.height = g.length) {steps : List Step}
    (hc : ∀ past, past <+: steps → (r.outstanding g past).lostCount r.marks.depth ≤ Count.top) :
    (r.afterAll steps).marks.height = (r.outstanding g steps).length := by
  induction steps generalizing r g with
  | nil => exact hh
  | cons step steps ih =>
    have hm := marks_perform hr step
    have hd : (r.perform step).after.marks.depth = r.marks.depth := by rw [hm, Marks.depth_change]
    refine ih (hr.perform step) ?_ ?_ fun past hp => ?_
    · rw [hm]
      exact h.change hr.depth_pos hr.length_held (r.change step)
    · rw [hm]
      exact h.height_change hr.depth_pos hh (hc [step] ⟨steps, rfl⟩)
    · rw [hd]
      exact hc (step :: past) (List.cons_prefix_cons.2 ⟨rfl, hp⟩)

end Reader

namespace Origin

/-- All marks outstanding after a history. -/
def outstanding (origin : Origin) (steps : List Step) : Ledger :=
  origin.build.after.outstanding [] steps

/-- At no time of a history are there more lost marks than a count can tell. -/
def CountsLost (origin : Origin) (steps : List Step) : Prop :=
  ∀ past, past <+: steps → (origin.outstanding past).lostCount origin.depth ≤ Count.top

/-- A history cannot lose more marks than it has calls. -/
theorem countsLost_of_length {origin : Origin} {steps : List Step} (h : steps.length ≤ Count.top) :
    origin.CountsLost steps := by
  intro past hp
  have hlen := origin.build.after.length_outstanding_le [] past
  have hlost := List.countP_le_length (p := (·.isLost origin.depth)) (l := origin.outstanding past)
  have hpast := hp.length_le
  simp only [List.length_nil, Nat.zero_add] at hlen
  unfold Ledger.lostCount
  unfold outstanding at *
  omega

theorem tracks (origin : Origin) (steps : List Step) :
    (origin.reader steps).marks.Tracks (origin.outstanding steps) := by
  refine Reader.tracks_outstanding origin.wellFormed_build ⟨.nil, ?_⟩ steps
  rw [marks_build]
  rfl

theorem height_marks {origin : Origin} {steps : List Step} (hc : origin.CountsLost steps) :
    (origin.reader steps).marks.height = (origin.outstanding steps).length := by
  refine Reader.height_outstanding origin.wellFormed_build (origin.tracks []) ?_ fun past hp => ?_
  · rw [marks_build]
    rfl
  · rw [marks_build]
    exact hc past hp

end Origin
end Retrace
