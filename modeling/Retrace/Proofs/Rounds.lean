import Retrace.Proofs.Drain

/-! Schedules, which may name clients that know of the end already. They lead nowhere else than an order
of visits does. The rounds in which every client asks in turn are enough to drain the text: each of them
takes a character as long as there is one, and the last tells everybody of the end. -/
namespace Retrace
namespace Crew

variable {crew : Crew} {i : Nat}

theorem ask_of_not_waits (h : ¬ crew.Waits i) : (crew.ask i).after = crew := by
  unfold ask
  cases hi : crew.clients[i]? with
  | none => rfl
  | some client =>
    have hd : client.done = true := eq_true_of_ne_false fun hd => h ⟨client, hi, hd⟩
    simp [hd]

theorem exists_interleaves_run (crew : Crew) (schedule : List Nat) :
    ∃ visits, crew.Interleaves visits ∧ crew.afterAll visits = crew.run schedule := by
  induction schedule generalizing crew with
  | nil => exact ⟨[], trivial, rfl⟩
  | cons i schedule ih =>
    obtain ⟨visits, hv, hafter⟩ := ih (crew.ask i).after
    by_cases hi : crew.Waits i
    · exact ⟨⟨i, .next⟩ :: visits, ⟨fun _ => hi, hv⟩, hafter⟩
    · rw [ask_of_not_waits hi] at hv hafter
      exact ⟨visits, hv, by rw [run_cons, ask_of_not_waits hi, hafter]⟩

theorem rest_after_ask (hi : crew.Waits i) :
    (crew.ask i).after.reader.rest = crew.reader.rest.tail := by
  obtain ⟨client, hi, hd⟩ := hi
  rw [ask_of_waiting hi hd]
  exact crew.reader.rest_after_next

theorem length_rest_run_le (crew : Crew) (schedule : List Nat) :
    (crew.run schedule).reader.rest.length ≤ crew.reader.rest.length := by
  induction schedule generalizing crew with
  | nil => exact Nat.le_refl _
  | cons i schedule ih =>
    refine Nat.le_trans (ih (crew.ask i).after) ?_
    by_cases hi : crew.Waits i
    · rw [rest_after_ask hi, List.length_tail]
      exact Nat.sub_le _ _
    · exact Nat.le_of_eq (by rw [ask_of_not_waits hi])

theorem not_waits_ask (h : ¬ crew.Waits i) (j : Nat) : ¬ (crew.ask j).after.Waits i := by
  by_cases hj : crew.Waits j
  · have hij : j ≠ i := fun he => h (he ▸ hj)
    obtain ⟨client, hj, hd⟩ := hj
    rw [ask_of_waiting hj hd]
    rintro ⟨c, hc, hdone⟩
    rw [Turn.after_lift, List.getElem?_set_ne hij] at hc
    exact h ⟨c, hc, hdone⟩
  · rwa [ask_of_not_waits hj]

theorem not_waits_run (h : ¬ crew.Waits i) (schedule : List Nat) :
    ¬ (crew.run schedule).Waits i := by
  induction schedule generalizing crew with
  | nil => exact h
  | cons j schedule ih => exact ih (not_waits_ask h j)

theorem not_waits_ask_self (hr : crew.reader.rest = []) (i : Nat) : ¬ (crew.ask i).after.Waits i := by
  by_cases hi : crew.Waits i
  · obtain ⟨client, hi, hd⟩ := hi
    rw [ask_of_waiting hi hd, Reader.answer_next, hr]
    rintro ⟨c, hc, hdone⟩
    rw [Turn.after_lift, List.getElem?_set_self (List.getElem?_eq_some_iff.1 hi).1] at hc
    obtain rfl := Option.some.inj hc
    simp at hdone
  · rwa [ask_of_not_waits hi]

theorem not_waits_run_of_mem (hr : crew.reader.rest = []) {schedule : List Nat}
    (hi : i ∈ schedule) : ¬ (crew.run schedule).Waits i := by
  induction schedule generalizing crew with
  | nil => cases hi
  | cons j schedule ih =>
    have hlater : (crew.ask j).after.reader.rest = [] := by
      have hle := length_rest_run_le crew [j]
      rw [hr] at hle
      exact List.length_eq_zero_iff.1 (Nat.le_zero.1 hle)
    obtain rfl | hi := List.mem_cons.1 hi
    · exact not_waits_run (not_waits_ask_self hr i) schedule
    · exact ih hlater hi

namespace Shares

variable {text : List Char} {start size : Nat} {takes : List Take}

theorem run (h : Shares text start size takes crew) (schedule : List Nat) :
    ∃ takes, Shares text start size takes (crew.run schedule) := by
  obtain ⟨visits, hv, hafter⟩ := crew.exists_interleaves_run schedule
  exact ⟨_, hafter ▸ h.afterAll hv⟩

theorem lt_of_waits (h : Shares text start size takes crew) (hi : crew.Waits i) : i < size := by
  obtain ⟨client, hi, -⟩ := hi
  exact h.length_clients ▸ (List.getElem?_eq_some_iff.1 hi).1

theorem waits_of_rest (h : Shares text start size takes crew) (hr : crew.reader.rest ≠ [])
    (hi : i < size) : crew.Waits i := by
  have hlt : i < crew.clients.length := h.length_clients.symm ▸ hi
  refine ⟨crew.clients[i], List.getElem?_eq_getElem hlt, eq_false_of_ne_true fun hd => ?_⟩
  exact hr (h.told _ (List.getElem_mem hlt) hd)

/-- As long as there is a character left, the first client of a round gets one. -/
theorem length_rest_round_le (h : Shares text start size takes crew) (hs : 1 ≤ size) {n : Nat}
    (hn : crew.reader.rest.length ≤ n + 1) :
    (crew.run (List.range size)).reader.rest.length ≤ n := by
  by_cases hr : crew.reader.rest = []
  · have hle := length_rest_run_le crew (List.range size)
    rw [hr] at hle
    exact Nat.le_trans hle (Nat.zero_le n)
  · have hfirst := rest_after_ask (h.waits_of_rest hr hs)
    obtain ⟨k, rfl⟩ := Nat.exists_eq_add_of_le' hs
    rw [List.range_succ_eq_map, run_cons]
    refine Nat.le_trans (length_rest_run_le _ _) ?_
    rw [hfirst, List.length_tail]
    omega

theorem not_waits_run_rounds (h : Shares text start size takes crew) (hs : 1 ≤ size) {n : Nat}
    (hn : crew.reader.rest.length ≤ n) (i : Nat) :
    ¬ (crew.run (List.replicate (n + 1) (List.range size)).flatten).Waits i := by
  induction n generalizing crew takes with
  | zero =>
    have hr : crew.reader.rest = [] := List.length_eq_zero_iff.1 (Nat.le_zero.1 hn)
    intro hi
    obtain ⟨_, hlater⟩ := h.run (List.replicate 1 (List.range size)).flatten
    refine not_waits_run_of_mem hr ?_ hi
    simpa using hlater.lt_of_waits hi
  | succ n ih =>
    obtain ⟨_, hlater⟩ := h.run (List.range size)
    rw [List.replicate_succ, List.flatten_cons, run_append]
    exact ih hlater (h.length_rest_round_le hs hn)

end Shares

/-- Whatever the schedule, the text is divided up to the offset, and the rounds drain it. -/
theorem run_divides_text (r : Reader) (text : List Char) (size : Nat) (ht : r.text = some text)
    (hc : r.status.offset ≤ text.length) (hs : 1 ≤ size) :
    (∀ schedule, ∃ takes, Divided text r.status.offset takes ((gather r size).run schedule)) ∧
      Drained text r.status.offset ((gather r size).run (gather r size).rounds) := by
  have hstart := Shares.of_gather ht hc size
  constructor
  · intro schedule
    obtain ⟨takes, hshares⟩ := hstart.run schedule
    exact ⟨takes, hshares.divided⟩
  · obtain ⟨takes, hshares⟩ := hstart.run (gather r size).rounds
    refine hshares.drained hs ?_
    rw [rounds, hstart.length_clients]
    exact hstart.not_waits_run_rounds hs (Nat.le_refl _)

end Crew
end Retrace
