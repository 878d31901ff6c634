import Retrace.Source
import Retrace.Proofs.WellFormed
import Mathlib.Data.List.Basic

/-! What lenient callers can find out about a reader: its position and the rest of its text, and
nothing else. Marks, characters already read and the difference between a closed reader and an
exhausted one do not show, whichever way the calls come. -/
namespace Retrace
namespace Reader

/-- Two readers in the same line, behind as many characters, with the same characters still to come. -/
structure Alike (r s : Reader) : Prop where
  line : r.line = s.line
  cursor : r.cursor = s.cursor
  rest : r.rest = s.rest

namespace Alike

variable {r s : Reader}

theorem position (h : Alike r s) : r.position = s.position := by
  rw [Reader.position, Reader.position, h.line, h.cursor]

theorem next (h : Alike r s) : Alike r.next.after s.next.after where
  line := by
    rw [after_next, after_next, h.rest]
    split <;> exact h.line
  cursor := by
    rw [after_next, after_next, h.rest]
    split
    · exact h.cursor
    · exact congrArg (· + 1) h.cursor
  rest := by rw [rest_after_next, rest_after_next, h.rest]

theorem query (h : Alike r s) (q : Query) :
    (Source.query r q).answer = (Source.query s q).answer ∧
      Alike (Source.query r q).after (Source.query s q).after := by
  cases q with
  | peek =>
    change Value.char r.peek.answer = .char s.peek.answer ∧ Alike r.peek.after s.peek.after
    rw [answer_peek, answer_peek, after_peek, after_peek, h.rest]
    exact ⟨rfl, h⟩
  | next =>
    change Value.char r.next.answer = .char s.next.answer ∧ Alike r.next.after s.next.after
    rw [answer_next, answer_next, h.rest]
    exact ⟨rfl, h.next⟩
  | position => exact ⟨congrArg Value.position h.position, h⟩

theorem values_eq (h : Alike r s) (queries : List Query) :
    Source.values r queries = Source.values s queries := by
  induction queries generalizing r s with
  | nil => rfl
  | cons q queries ih =>
    obtain ⟨hanswer, hafter⟩ := h.query q
    rw [Source.values, Source.values, hanswer, ih hafter]

end Alike

theorem values_replicate_next (r : Reader) (n : Nat) :
    Source.values r (List.replicate n .next) = (List.range n).map fun i => .char r.rest[i]? := by
  induction n generalizing r with
  | zero => rfl
  | succ n ih =>
    have hlater := ih r.next.after
    rw [rest_after_next] at hlater
    rw [List.replicate_succ, List.range_succ_eq_map, List.map_cons, List.map_map]
    change Value.char r.next.answer :: Source.values r.next.after (List.replicate n .next) = _
    rw [hlater, answer_next, List.head?_eq_getElem?]
    congr 1
    refine List.map_congr_left fun i _ => ?_
    rw [List.getElem?_tail]
    rfl

/-- One question for the position, and as many for characters as it takes, tell readers apart
that are not alike. -/
theorem alike_of_values_eq {r s : Reader}
    (h : ∀ queries, Source.values r queries = Source.values s queries) : Alike r s := by
  have hposition : r.position = s.position := Value.position.inj (List.cons.inj (h [.position])).1
  refine ⟨congrArg Position.line hposition, congrArg Position.offset hposition,
    List.ext_getElem? fun i => ?_⟩
  have hvalues := h (List.replicate (i + 1) .next)
  rw [values_replicate_next, values_replicate_next] at hvalues
  have hlast := List.map_inj_left.1 hvalues i List.self_mem_range_succ
  exact Value.char.inj hlast

theorem values_eq_iff_alike {r s : Reader} :
    (∀ queries, Source.values r queries = Source.values s queries) ↔ Alike r s :=
  ⟨alike_of_values_eq, fun h => h.values_eq⟩

theorem replies_eq_iff_values_eq {r s : Reader} (queries : List Query) :
    r.replies (queries.map Query.step) = s.replies (queries.map Query.step) ↔
      Source.values r queries = Source.values s queries := by
  have hinj : Function.Injective Reply.ok := by
    intro v w h
    exact Except.ok.inj (congrArg Reply.outcome h)
  rw [replies_queries, replies_queries, List.map_inj_right hinj]

theorem Alike.of_closed {r s : Reader} (hc : r.isClosed = true) (hs : s.rest = [])
    (hline : r.line = s.line) (hcursor : r.cursor = s.cursor) : Alike r s :=
  ⟨hline, hcursor, (rest_of_closed (isClosed_iff.1 hc)).trans hs.symm⟩

theorem values_peek_ne_of_closed {r s : Reader} (hc : r.isClosed = true) (hs : s.rest ≠ []) :
    Source.values r [.peek] ≠ Source.values s [.peek] := by
  intro h
  have hpeek : r.peek.answer = s.peek.answer := Value.char.inj (List.cons.inj h).1
  rw [answer_peek, answer_peek, rest_of_closed (isClosed_iff.1 hc)] at hpeek
  exact hs (List.head?_eq_none_iff.1 hpeek.symm)

end Reader

namespace Arena

variable {size size' : Nat} {a : Arena size} {b : Arena size'} {cell : Fin size} {cell' : Fin size'}
variable {v w : Way}

theorem values?_of_way (h : v.Reaches a cell) (queries : List Query) :
    a.values? cell (queries.map (v, ·)) = some (Source.values (a.reader cell) queries) := by
  have hall : ∀ c ∈ queries.map (v, ·), c.1.Reaches a cell := by
    intro c hc
    obtain ⟨q, -, rfl⟩ := List.mem_map.1 hc
    exact h
  rw [values?_of_reaches hall, List.map_map]
  exact congrArg (some <| Source.values (a.reader cell) ·) (List.map_id queries)

/-- Through any two ways, the calls tell the readers at their ends apart if any calls do. -/
theorem values?_eq_iff_alike (hv : v.Reaches a cell) (hw : w.Reaches b cell') :
    (∀ queries : List Query,
        a.values? cell (queries.map (v, ·)) = b.values? cell' (queries.map (w, ·))) ↔
      (a.reader cell).Alike (b.reader cell') := by
  rw [← Reader.values_eq_iff_alike]
  refine forall_congr' fun queries => ?_
  rw [values?_of_way hv, values?_of_way hw, Option.some_inj]

theorem values?_eq_of_alike (h : (a.reader cell).Alike (b.reader cell'))
    {calls others : List (Way × Query)} (hc : ∀ c ∈ calls, c.1.Reaches a cell) (ho : ∀ c ∈ others, c.1.Reaches b cell')
    (hq : calls.map (·.2) = others.map (·.2)) : a.values? cell calls = b.values? cell' others := by
  rw [values?_of_reaches hc, values?_of_reaches ho, hq, h.values_eq]

end Arena

/-- The answers to calls that come directly, through loans and through handles, in any mixture, are
the same for two readers iff these are in the same line, behind as many characters, and have the
same characters to come. A closed reader has none to come. -/
theorem lenient_callers_see_position_and_rest {size size' : Nat} (a : Arena size) (b : Arena size')
    (cell : Fin size) (cell' : Fin size') :
    let r := a.reader cell
    let s := b.reader cell'
    ((∀ queries : List Query,
        r.replies (queries.map Query.step) = s.replies (queries.map Query.step)) ↔ r.Alike s) ∧
    ((∀ calls : List (Way × Query), (∀ c ∈ calls, c.1.Reaches a cell ∧ c.1.Reaches b cell') →
        a.values? cell calls = b.values? cell' calls) ↔ r.Alike s) ∧
    (∀ v w : Way, v.Reaches a cell → w.Reaches b cell' →
      ((∀ queries : List Query,
        a.values? cell (queries.map (v, ·)) = b.values? cell' (queries.map (w, ·))) ↔ r.Alike s)) ∧
    (r.Alike s → ∀ calls others : List (Way × Query), (∀ c ∈ calls, c.1.Reaches a cell) →
      (∀ c ∈ others, c.1.Reaches b cell') → calls.map (·.2) = others.map (·.2) →
      a.values? cell calls = b.values? cell' others) ∧
    (∀ calls : List (Way × Query), (∀ c ∈ calls, c.1.Reaches a cell) →
      ∃ values, a.values? cell calls = some values ∧
        r.replies (calls.map (·.2.step)) = values.map .ok) ∧
    (r.isClosed = true → s.rest = [] → r.line = s.line → r.cursor = s.cursor →
      ∀ calls : List (Way × Query), (∀ c ∈ calls, c.1.Reaches a cell ∧ c.1.Reaches b cell') →
        a.values? cell calls = b.values? cell' calls) ∧
    (r.isClosed = true → s.rest ≠ [] → ∀ v w : Way, v.Reaches a cell → w.Reaches b cell' →
      a.values? cell [(v, .peek)] ≠ b.values? cell' [(w, .peek)]) := by
  intro r s
  have hsame (h : r.Alike s) (calls : List (Way × Query))
      (hc : ∀ c ∈ calls, c.1.Reaches a cell ∧ c.1.Reaches b cell') :
      a.values? cell calls = b.values? cell' calls :=
    Arena.values?_eq_of_alike h (fun c hm => (hc c hm).1) (fun c hm => (hc c hm).2) rfl
  refine ⟨?_, ⟨fun h => ?_, hsame⟩, ?_, ?_, ?_, ?_, ?_⟩
  · simp only [Reader.replies_eq_iff_values_eq]
    exact Reader.values_eq_iff_alike
  · have hdirect : (∀ queries : List Query, a.values? cell (queries.map (Way.direct, ·)) =
        b.values? cell' (queries.map (Way.direct, ·))) ↔ r.Alike s :=
      Arena.values?_eq_iff_alike trivial trivial
    refine hdirect.1 fun queries => h _ fun c hc => ?_
    obtain ⟨q, -, rfl⟩ := List.mem_map.1 hc
    exact ⟨trivial, trivial⟩
  · exact fun v w hv hw => Arena.values?_eq_iff_alike hv hw
  · exact fun h calls others hc ho hq => Arena.values?_eq_of_alike h hc ho hq
  · intro calls hc
    have hreplies := r.replies_queries (calls.map (·.2))
    rw [List.map_map] at hreplies
    exact ⟨_, Arena.values?_of_reaches hc, hreplies⟩
  · exact fun hc hs hline hcursor => hsame (.of_closed hc hs hline hcursor)
  · intro hc hs v w hv hw heq
    have hleft := Arena.values?_of_way hv [.peek]
    have hright := Arena.values?_of_way hw [.peek]
    exact Reader.values_peek_ne_of_closed hc hs (Option.some.inj (hleft.symm.trans (heq.trans hright)))

/-- A reader that was closed at the end of its text passes for one that still stands there, also
through handles and loans, and does not pass for one that has a character left. -/
theorem lenient_callers_of_closed_and_exhausted :
    let closed : Arena 1 := ⟨#v[(Origin.text ['a']).reader [.read, .close]], [0, 0]⟩
    let exhausted := Arena.share ((Origin.text ['a']).reader [.read])
    let fresh := Arena.share ((Origin.text ['a']).reader [])
    ((closed.reader 0).isClosed = true ∧ (exhausted.reader 0).rest = [] ∧ (fresh.reader 0).rest ≠ []) ∧
    closed.values? 0 [(.direct, .position), (.loan (.handle 0), .next), (.loan .direct, .peek)] =
      exhausted.values? 0 [(.direct, .position), (.loan (.handle 0), .next), (.loan .direct, .peek)] ∧
    (∀ queries : List Query, closed.values? 0 (queries.map (.handle 1, ·)) =
      exhausted.values? 0 (queries.map (.loan .direct, ·))) ∧
    closed.values? 0 [(.handle 1, .peek)] ≠ fresh.values? 0 [(.handle 0, .peek)] := by
  intro closed exhausted fresh
  have hend := lenient_callers_see_position_and_rest closed exhausted 0 0
  have hleft := lenient_callers_see_position_and_rest closed fresh 0 0
  obtain ⟨-, -, hways, -, -, hclosed, -⟩ := hend
  refine ⟨⟨rfl, rfl, by decide⟩, hclosed rfl rfl rfl rfl _ ?_, ?_, ?_⟩
  · simp only [List.forall_mem_cons]
    exact ⟨⟨trivial, trivial⟩, ⟨rfl, rfl⟩, ⟨trivial, trivial⟩, by simp⟩
  · exact (hways (.handle 1) (.loan .direct) rfl trivial).2 ⟨rfl, rfl, rfl⟩
  · exact hleft.2.2.2.2.2.2 rfl (by decide) (.handle 1) (.handle 0) rfl rfl

end Retrace
