import Retrace.Crew
import Retrace.Source
import Retrace.Proofs.WellFormed
import Mathlib.Algebra.GroupWithZero.Nat
import Mathlib.Data.List.Nodup
import Mathlib.Data.List.Perm.Basic

/-! Clients that drain one reader together, in whatever order they get its lock, while others look
at the reader in between. The clients divide the rest of the text among themselves: every
character goes to just one of them. The client with some number calls through the handle with
the same number. -/
namespace Retrace

/-- A character that a client was given, and where it stands in the text. -/
structure Take where
  client : Nat
  index : Nat
  char : Char
  deriving DecidableEq, Repr

/-- Where the characters stand that a client was given, in the order in which it got them. -/
def Take.indicesOf (client : Nat) (takes : List Take) : List Nat :=
  (takes.filter fun t => t.client = client).map (·.index)

theorem Take.mem_indicesOf {client index : Nat} {takes : List Take} :
    index ∈ indicesOf client takes ↔ ∃ t ∈ takes, t.client = client ∧ t.index = index := by
  simp [indicesOf, and_assoc]

def Visit.asks (v : Visit) : Bool := decide (v.query = .next)

namespace Client

@[simp] theorem received_take (c : Client) (a : Option Char) :
    (c.take a).received = c.received ++ a.toList := by
  cases a <;> simp [take]

@[simp] theorem done_take (c : Client) (a : Option Char) :
    (c.take a).done = (c.done || a.isNone) := by
  cases a <;> simp [take]

end Client

namespace Crew

/-- A client that has not been told of the end. -/
def Waits (crew : Crew) (i : Nat) : Prop :=
  ∃ client, crew.clients[i]? = some client ∧ client.done = false

/-- Clients that wait may ask for a character. Everybody may look, at all times. -/
def Admits (crew : Crew) (v : Visit) : Prop := v.asks = true → crew.Waits v.handle

def visit (crew : Crew) (v : Visit) : Turn Crew Value :=
  match v.query with
  | .next => (crew.ask v.handle).map .char
  | .peek => (crew.reader.peek.map .char).lift fun reader => { crew with reader }
  | .position => ⟨.position crew.reader.position, crew, []⟩

/-- An order in which visits may get the lock. -/
def Interleaves (crew : Crew) : List Visit → Prop
  | [] => True
  | v :: visits => crew.Admits v ∧ (crew.visit v).after.Interleaves visits

def afterAll (crew : Crew) : List Visit → Crew
  | [] => crew
  | v :: visits => (crew.visit v).after.afterAll visits

instance (crew : Crew) (i : Nat) : Decidable (crew.Waits i) :=
  decidable_of_iff ((crew.clients[i]?).any (!·.done) = true) (by simp [Waits, Option.any_eq_true])

instance (crew : Crew) (v : Visit) : Decidable (crew.Admits v) :=
  inferInstanceAs (Decidable (_ → _))

instance decidableInterleaves (crew : Crew) :
    (visits : List Visit) → Decidable (crew.Interleaves visits)
  | [] => .isTrue trivial
  | v :: visits =>
    have := decidableInterleaves (crew.visit v).after visits
    inferInstanceAs (Decidable (_ ∧ _))

def values (crew : Crew) : List Visit → List Value
  | [] => []
  | v :: visits => (crew.visit v).answer :: (crew.visit v).after.values visits

/-- The character that a visit takes, if it takes one. -/
def taken (crew : Crew) (v : Visit) : List Take :=
  if v.asks then
    ((crew.ask v.handle).answer.map (Take.mk v.handle crew.reader.cursor)).toList
  else []

def takes (crew : Crew) : List Visit → List Take
  | [] => []
  | v :: visits => crew.taken v ++ (crew.visit v).after.takes visits

/-- How many more times the clients will ask. -/
def left (crew : Crew) : Nat := crew.reader.rest.length + crew.clients.countP fun c => !c.done

variable {crew : Crew} {v : Visit} {i : Nat} {client : Client}

theorem ask_of_waiting (hi : crew.clients[i]? = some client) (hd : client.done = false) :
    crew.ask i = crew.reader.next.lift fun reader =>
      ⟨reader, crew.clients.set i (client.take crew.reader.next.answer)⟩ := by
  simp [ask, hi, hd]

theorem visit_of_not_asks (h : v.asks = false) :
    (crew.visit v).after = crew ∧ crew.taken v = [] := by
  obtain ⟨handle, q⟩ := v
  cases q with
  | next => cases h
  | peek =>
    refine ⟨?_, rfl⟩
    change { crew with reader := crew.reader.peek.after } = crew
    rw [Reader.after_peek]
  | position => exact ⟨rfl, rfl⟩

/-- A client that asks is given the next character, or told of the end. -/
theorem visit_of_asks (h : v.asks = true) (hi : crew.clients[v.handle]? = some client)
    (hd : client.done = false) :
    (crew.visit v).after =
        ⟨crew.reader.next.after, crew.clients.set v.handle (client.take crew.reader.rest.head?)⟩ ∧
      crew.taken v =
        (crew.reader.rest.head?.map (Take.mk v.handle crew.reader.cursor)).toList := by
  obtain ⟨handle, q⟩ := v
  obtain rfl : q = .next := of_decide_eq_true h
  rw [← crew.reader.answer_next]
  constructor
  · simp only [visit, ask_of_waiting hi hd]
    rfl
  · simp only [taken, h, if_true, ask_of_waiting hi hd]
    rfl

theorem visit_eq_query (h : crew.Admits v) :
    (crew.visit v).answer = (Source.query crew.reader v.query).answer ∧
      (crew.visit v).after.reader = (Source.query crew.reader v.query).after := by
  obtain ⟨handle, q⟩ := v
  cases q with
  | next =>
    obtain ⟨client, hi, hd⟩ := h rfl
    simp only [visit, ask_of_waiting hi hd]
    exact ⟨rfl, rfl⟩
  | peek | position => exact ⟨rfl, rfl⟩

theorem values_eq (crew : Crew) {visits : List Visit} (h : crew.Interleaves visits) :
    crew.values visits = Source.values crew.reader (visits.map (·.query)) := by
  induction visits generalizing crew with
  | nil => rfl
  | cons v visits ih =>
    obtain ⟨hanswer, hafter⟩ := visit_eq_query h.1
    rw [values, List.map_cons, Source.values, hanswer, ih _ h.2, hafter]

/-- Each time a client asks, there is one time less to come, whatever it is answered. -/
theorem left_visit (h : crew.Admits v) :
    (crew.visit v).after.left + (if v.asks then 1 else 0) = crew.left := by
  cases hv : v.asks with
  | false =>
    rw [(visit_of_not_asks hv).1]
    rfl
  | true =>
    obtain ⟨client, hi, hd⟩ := h hv
    obtain ⟨hlt, hget⟩ := List.getElem?_eq_some_iff.1 hi
    have hpos : 0 < crew.clients.countP fun c => !c.done :=
      List.countP_pos_iff.2 ⟨client, List.mem_of_getElem? hi, by rw [hd]; rfl⟩
    rw [(visit_of_asks hv hi hd).1, left, left, Reader.rest_after_next, List.countP_set hlt, hget,
      Client.done_take, hd]
    -- either a character goes, or a client that was not done
    cases crew.reader.rest with
    | nil => simp; omega
    | cons c cs => simp; omega

theorem left_afterAll {visits : List Visit} (h : crew.Interleaves visits) :
    (crew.afterAll visits).left + visits.countP (·.asks) = crew.left := by
  induction visits generalizing crew with
  | nil => rfl
  | cons v visits ih =>
    have hlater := ih h.2
    have hfirst := left_visit h.1
    rw [afterAll, List.countP_cons]
    omega

theorem left_gather (r : Reader) (size : Nat) : (gather r size).left = r.rest.length + size := by
  simp [left, gather, List.countP_replicate]

theorem not_waits_iff : (∀ i, ¬ crew.Waits i) ↔ ∀ client ∈ crew.clients, client.done = true := by
  constructor
  · intro h client hm
    obtain ⟨i, hi⟩ := List.mem_iff_getElem?.1 hm
    exact eq_true_of_ne_false fun hd => h i ⟨client, hi, hd⟩
  · rintro h i ⟨client, hi, hd⟩
    rw [h client (List.mem_of_getElem? hi)] at hd
    cases hd

/-- What is given to one client is given to the crew, and nothing else is. -/
theorem received_set_perm {clients : List Client} (hi : clients[i]? = some client)
    (a : Option Char) :
    ((clients.set i (client.take a)).flatMap (·.received)).Perm
      (clients.flatMap (·.received) ++ a.toList) := by
  induction clients generalizing i with
  | nil => cases hi
  | cons first clients ih =>
    cases i with
    | zero =>
      obtain rfl : first = client := Option.some.inj hi
      simp only [List.set_cons_zero, List.flatMap_cons, Client.received_take, List.append_assoc]
      exact List.perm_append_comm.append_left first.received
    | succ i =>
      simp only [List.set_cons_succ, List.flatMap_cons, List.append_assoc]
      exact (ih hi).append_left first.received

/-- The clients have divided the text from `start` up to the cursor among themselves. -/
structure Shares (text : List Char) (start size : Nat) (takes : List Take) (crew : Crew) :
    Prop where
  open_on : crew.reader.text = some text
  start_le : start ≤ crew.reader.cursor
  cursor_le : crew.reader.cursor ≤ text.length
  length_clients : crew.clients.length = size
  indices : takes.map (·.index) = List.range' start (crew.reader.cursor - start)
  chars : ∀ t ∈ takes, text[t.index]? = some t.char
  client_lt : ∀ t ∈ takes, t.client < size
  own : ∀ i client, crew.clients[i]? = some client →
    client.received = (takes.filter fun t => t.client = i).map (·.char)
  all : crew.received.Perm (takes.map (·.char))
  told : ∀ client ∈ crew.clients, client.done = true → crew.reader.rest = []

namespace Shares

variable {text : List Char} {start size : Nat} {takes : List Take}

theorem own_set (h : Shares text start size takes crew) (hi : crew.clients[i]? = some client)
    (a : Option Char) (index j : Nat) (c : Client)
    (hj : (crew.clients.set i (client.take a))[j]? = some c) :
    c.received = ((takes ++ (a.map (Take.mk i index)).toList).filter fun t => t.client = j).map
      (·.char) := by
  have hlt := (List.getElem?_eq_some_iff.1 hi).1
  rw [List.filter_append, List.map_append]
  by_cases hij : i = j
  · subst hij
    rw [List.getElem?_set_self hlt] at hj
    obtain rfl := Option.some.inj hj
    rw [Client.received_take, h.own i client hi]
    cases a <;> simp
  · rw [List.getElem?_set_ne hij] at hj
    rw [h.own j c hj]
    cases a <;> simp [hij]

theorem visit_of_rest_nil (h : Shares text start size takes crew)
    (hi : crew.clients[i]? = some client) (hr : crew.reader.rest = []) :
    Shares text start size takes ⟨crew.reader, crew.clients.set i (client.take none)⟩ where
  open_on := h.open_on
  start_le := h.start_le
  cursor_le := h.cursor_le
  length_clients := by rw [List.length_set, h.length_clients]
  indices := h.indices
  chars := h.chars
  client_lt := h.client_lt
  own j c hj := by simpa using h.own_set hi none 0 j c hj
  all := by simpa [received] using (received_set_perm hi none).trans (h.all.append_right _)
  told _ _ _ := hr

theorem visit_of_rest_cons (h : Shares text start size takes crew)
    (hi : crew.clients[i]? = some client) (hd : client.done = false) {c : Char} {cs : List Char}
    (hr : crew.reader.rest = c :: cs) :
    Shares text start size (takes ++ [⟨i, crew.reader.cursor, c⟩])
      ⟨{ crew.reader with cursor := crew.reader.cursor + 1 },
        crew.clients.set i (client.take (some c))⟩ := by
  have hdrop := (Reader.rest_of_open h.open_on).symm.trans hr
  have hc : text[crew.reader.cursor]? = some c := by rw [← List.head?_drop, hdrop, List.head?_cons]
  have hlt := (List.getElem?_eq_some_iff.1 hc).1
  have hstart := h.start_le
  exact {
    open_on := h.open_on
    start_le := Nat.le_succ_of_le h.start_le
    cursor_le := hlt
    length_clients := by rw [List.length_set, h.length_clients]
    indices := by
      have hn : crew.reader.cursor + 1 - start = crew.reader.cursor - start + 1 := by omega
      have hlast : start + (crew.reader.cursor - start) = crew.reader.cursor := by omega
      rw [List.map_append, h.indices, hn, List.range'_1_concat, hlast]
      rfl
    chars := by
      intro t ht
      rcases List.mem_append.1 ht with ht | ht
      · exact h.chars t ht
      · rw [List.mem_singleton.1 ht]
        exact hc
    client_lt := by
      intro t ht
      rcases List.mem_append.1 ht with ht | ht
      · exact h.client_lt t ht
      · rw [List.mem_singleton.1 ht, ← h.length_clients]
        exact (List.getElem?_eq_some_iff.1 hi).1
    own := fun j c' hj => h.own_set hi (some c) _ j c' hj
    all := by simpa [received] using (received_set_perm hi (some c)).trans (h.all.append_right [c])
    told := by
      -- nobody knows of the end while there is a character left
      intro client' hm hdone
      rcases List.mem_or_eq_of_mem_set hm with hm | rfl
      · have hnil := h.told client' hm hdone
        rw [hr] at hnil
        cases hnil
      · simp [hd] at hdone }

theorem visit (h : Shares text start size takes crew) (ha : crew.Admits v) :
    Shares text start size (takes ++ crew.taken v) (crew.visit v).after := by
  cases hv : v.asks with
  | false =>
    obtain ⟨hafter, htaken⟩ := visit_of_not_asks hv
    rw [hafter, htaken, List.append_nil]
    exact h
  | true =>
    obtain ⟨client, hi, hd⟩ := ha hv
    obtain ⟨hafter, htaken⟩ := visit_of_asks hv hi hd
    rw [hafter, htaken, Reader.after_next]
    cases hr : crew.reader.rest with
    | nil =>
      rw [if_pos rfl]
      simpa using h.visit_of_rest_nil hi hr
    | cons c cs =>
      rw [if_neg (List.cons_ne_nil c cs)]
      exact h.visit_of_rest_cons hi hd hr

theorem afterAll (h : Shares text start size takes crew) {visits : List Visit}
    (hv : crew.Interleaves visits) :
    Shares text start size (takes ++ crew.takes visits) (crew.afterAll visits) := by
  induction visits generalizing crew takes with
  | nil =>
    rw [Crew.takes, List.append_nil]
    exact h
  | cons v visits ih =>
    have hlater := ih (h.visit hv.1) hv.2
    rwa [List.append_assoc] at hlater

theorem of_gather {r : Reader} (ht : r.text = some text) (hc : r.cursor ≤ text.length)
    (size : Nat) : Shares text r.cursor size [] (gather r size) where
  open_on := ht
  start_le := Nat.le_refl _
  cursor_le := hc
  length_clients := List.length_replicate
  indices := by
    have hn : (gather r size).reader.cursor - r.cursor = 0 := Nat.sub_self _
    rw [hn]
    rfl
  chars _ h := absurd h List.not_mem_nil
  client_lt _ h := absurd h List.not_mem_nil
  own i client hi := by
    obtain rfl := List.eq_of_mem_replicate (List.mem_of_getElem? hi)
    rfl
  all := by
    have hnone : (gather r size).received = [] := by
      refine List.flatMap_eq_nil_iff.2 fun client hm => ?_
      rw [List.eq_of_mem_replicate hm]
    rw [hnone]
    rfl
  told client hm hd := by
    rw [List.eq_of_mem_replicate hm] at hd
    cases hd

theorem length_takes (h : Shares text start size takes crew) :
    takes.length = crew.reader.cursor - start := by
  simpa using congrArg List.length h.indices

theorem map_char (h : Shares text start size takes crew) :
    takes.map (·.char) = (text.take crew.reader.cursor).drop start := by
  have hcursor := h.cursor_le
  have hlength := h.length_takes
  refine List.ext_getElem ?_ fun i hi _ => ?_
  · rw [List.length_map, List.length_drop, List.length_take]
    omega
  · rw [List.length_map] at hi
    have hindex : takes[i].index = start + i := by
      have hget : (takes.map (·.index))[i]? = some (start + i) := by
        rw [h.indices, List.getElem?_range' (hlength ▸ hi), Nat.one_mul]
      rw [List.getElem?_map, List.getElem?_eq_getElem hi] at hget
      exact Option.some.inj hget
    have hchar := h.chars takes[i] (List.getElem_mem hi)
    rw [hindex] at hchar
    rw [List.getElem_map, List.getElem_drop, List.getElem_take]
    exact (List.getElem_of_getElem? hchar).2.symm

theorem mem_index (h : Shares text start size takes crew) {index : Nat} :
    index ∈ takes.map (·.index) ↔ start ≤ index ∧ index < crew.reader.cursor := by
  have hstart := h.start_le
  rw [h.indices, List.mem_range'_1]
  omega

theorem pairwise_indicesOf (h : Shares text start size takes crew) (i : Nat) :
    (Take.indicesOf i takes).Pairwise (· < ·) := by
  have hall : (takes.map (·.index)).Pairwise (· < ·) := by
    rw [h.indices]
    exact List.pairwise_lt_range'
  exact hall.sublist (List.filter_sublist.map _)

theorem map_received (h : Shares text start size takes crew) (hi : crew.clients[i]? = some client) :
    client.received.map some = (Take.indicesOf i takes).map (text[·]?) := by
  rw [h.own i client hi, Take.indicesOf, List.map_map, List.map_map]
  refine List.map_congr_left fun t ht => ?_
  exact (h.chars t (List.mem_of_mem_filter ht)).symm

theorem existsUnique_client (h : Shares text start size takes crew) (index : Nat) :
    (start ≤ index ∧ index < crew.reader.cursor →
        ∃! i, i < size ∧ index ∈ Take.indicesOf i takes) ∧
      ∀ i, index ∈ Take.indicesOf i takes → start ≤ index ∧ index < crew.reader.cursor := by
  have hnodup : (takes.map (·.index)).Nodup := by
    rw [h.indices]
    exact List.nodup_range'
  constructor
  · intro hrange
    obtain ⟨t, ht, hindex⟩ := List.mem_map.1 (h.mem_index.2 hrange)
    refine ⟨t.client, ⟨h.client_lt t ht, Take.mem_indicesOf.2 ⟨t, ht, rfl, hindex⟩⟩, ?_⟩
    rintro i ⟨-, hi⟩
    obtain ⟨t', ht', rfl, hindex'⟩ := Take.mem_indicesOf.1 hi
    rw [List.inj_on_of_nodup_map hnodup ht' ht (hindex'.trans hindex.symm)]
  · intro i hi
    obtain ⟨t, ht, -, hindex⟩ := Take.mem_indicesOf.1 hi
    exact h.mem_index.1 (List.mem_map.2 ⟨t, ht, hindex⟩)

theorem left_eq_zero_iff (h : Shares text start size takes crew) (hs : 1 ≤ size) :
    crew.left = 0 ↔ ∀ i, ¬ crew.Waits i := by
  rw [not_waits_iff, left, Nat.add_eq_zero_iff, List.length_eq_zero_iff, List.countP_eq_zero]
  constructor
  · rintro ⟨-, hdone⟩ client hm
    simpa using hdone client hm
  · intro hdone
    have hpos : 0 < crew.clients.length := h.length_clients ▸ hs
    have hm := List.getElem_mem hpos
    exact ⟨h.told _ hm (hdone _ hm), fun client hm => by simp [hdone client hm]⟩

theorem cursor_eq_length (h : Shares text start size takes crew) (hr : crew.reader.rest = []) :
    crew.reader.cursor = text.length := by
  rw [Reader.rest_of_open h.open_on, List.drop_eq_nil_iff] at hr
  exact Nat.le_antisymm h.cursor_le hr

end Shares

/-- The text from `start` up to the offset, divided among the clients. -/
structure Divided (text : List Char) (start : Nat) (takes : List Take) (crew : Crew) : Prop where
  range : start ≤ crew.reader.status.offset ∧ crew.reader.status.offset ≤ text.length
  order : takes.map (·.char) = (text.take crew.reader.status.offset).drop start
  once : ∀ index, start ≤ index ∧ index < crew.reader.status.offset →
    ∃! i, i < crew.clients.length ∧ index ∈ Take.indicesOf i takes
  within : ∀ index i, index ∈ Take.indicesOf i takes →
    start ≤ index ∧ index < crew.reader.status.offset
  increasing : ∀ i, (Take.indicesOf i takes).Pairwise (· < ·)
  own : ∀ i client, crew.clients[i]? = some client →
    client.received.map some = (Take.indicesOf i takes).map (text[·]?)

/-- Nothing is left, and everybody knows. -/
structure Drained (text : List Char) (start : Nat) (crew : Crew) : Prop where
  done : ∀ client ∈ crew.clients, client.done = true
  counts : (crew.clients.map fun client => client.received.length).sum = text.length - start
  received : crew.received.Perm (text.drop start)
  offset : crew.reader.status.offset = text.length

namespace Shares

variable {text : List Char} {start size : Nat} {takes : List Take}

theorem divided (h : Shares text start size takes crew) : Divided text start takes crew where
  range := ⟨h.start_le, h.cursor_le⟩
  order := h.map_char
  once index := h.length_clients ▸ (h.existsUnique_client index).1
  within index := (h.existsUnique_client index).2
  increasing := h.pairwise_indicesOf
  own _ _ := h.map_received

theorem drained (h : Shares text start size takes crew) (hs : 1 ≤ size)
    (hw : ∀ i, ¬ crew.Waits i) : Drained text start crew := by
  have hleft := (h.left_eq_zero_iff hs).2 hw
  rw [left, Nat.add_eq_zero_iff, List.length_eq_zero_iff] at hleft
  have hcursor := h.cursor_eq_length hleft.1
  have hreceived : crew.received.Perm (text.drop start) := by
    have hall := h.all
    rwa [h.map_char, hcursor, List.take_length] at hall
  exact {
    done := not_waits_iff.1 hw
    counts := by
      rw [← List.length_drop, ← hreceived.length_eq, Crew.received, List.length_flatMap]
    received := hreceived
    offset := hcursor }

end Shares

/-- In every state that clients reach who drain an open reader, the text behind the start is divided
among them up to the offset. They ask as often as there are characters, and once more each; then they
all know of the end, and between them they have the whole text. -/
theorem drain_divides_text (r : Reader) (text : List Char) (size : Nat) (visits : List Visit)
    (ht : r.text = some text) (hc : r.status.offset ≤ text.length) (hs : 1 ≤ size)
    (hv : (gather r size).Interleaves visits) :
    Divided text r.status.offset ((gather r size).takes visits) ((gather r size).afterAll visits) ∧
    ((gather r size).afterAll visits).clients.length = size ∧
    visits.countP (·.asks) ≤ text.length - r.status.offset + size ∧
    (visits.countP (·.asks) = text.length - r.status.offset + size ↔
      ∀ i, ¬ ((gather r size).afterAll visits).Waits i) ∧
    ((∀ i, ¬ ((gather r size).afterAll visits).Waits i) →
      Drained text r.status.offset ((gather r size).afterAll visits)) ∧
    r.replies (visits.map fun v => v.query.step) = ((gather r size).values visits).map .ok ∧
    ∀ s : Shared, s.reader = r → (∀ v ∈ visits, v.handle < s.handles) →
      ∃ turns, s.turns? (visits.map Visit.call) = some turns ∧
        turns.map (·.answer) = ((gather r size).values visits).map .value := by
  have hshares := (Shares.of_gather ht hc size).afterAll hv
  rw [List.nil_append] at hshares
  have hleft := left_afterAll hv
  have hlength : r.rest.length = text.length - r.status.offset := by
    rw [Reader.rest_of_open ht, List.length_drop, Reader.status_offset]
  rw [left_gather, hlength] at hleft
  have hvalues : (gather r size).values visits = Source.values r (visits.map (·.query)) :=
    values_eq _ hv
  refine ⟨hshares.divided, hshares.length_clients, by omega, ?_, hshares.drained hs, ?_, ?_⟩
  · rw [← hshares.left_eq_zero_iff hs]
    omega
  · rw [hvalues, ← Reader.replies_queries, List.map_map]
    rfl
  · rintro s rfl hhandles
    rw [hvalues]
    exact Shared.turns?_visits hhandles

/-- Two clients behind a character that is read already, and a third party that looks. -/
theorem drain_divides_text_by_two :
    ((gather ((Origin.text ['a', 'b', 'c']).reader [.read]) 2).Interleaves
        [⟨1, .next⟩, ⟨2, .peek⟩, ⟨0, .next⟩, ⟨1, .next⟩, ⟨2, .position⟩, ⟨0, .next⟩]) ∧
      ((gather ((Origin.text ['a', 'b', 'c']).reader [.read]) 2).afterAll
          [⟨1, .next⟩, ⟨2, .peek⟩, ⟨0, .next⟩, ⟨1, .next⟩, ⟨2, .position⟩, ⟨0, .next⟩]).clients =
        [⟨['c'], true⟩, ⟨['b'], true⟩] ∧
      Drained ['a', 'b', 'c'] 1
        ((gather ((Origin.text ['a', 'b', 'c']).reader [.read]) 2).afterAll
          [⟨1, .next⟩, ⟨2, .peek⟩, ⟨0, .next⟩, ⟨1, .next⟩, ⟨2, .position⟩, ⟨0, .next⟩]) ∧
      ∃ turns, Shared.turns? { reader := (Origin.text ['a', 'b', 'c']).reader [.read], handles := 3 }
          [⟨1, .next⟩, ⟨2, .peek⟩, ⟨0, .next⟩, ⟨1, .next⟩, ⟨2, .position⟩, ⟨0, .next⟩] =
        some turns := by
  have hv : (gather ((Origin.text ['a', 'b', 'c']).reader [.read]) 2).Interleaves
      [⟨1, .next⟩, ⟨2, .peek⟩, ⟨0, .next⟩, ⟨1, .next⟩, ⟨2, .position⟩, ⟨0, .next⟩] := by decide
  obtain ⟨-, -, -, hcount, hdrained, -, hshared⟩ :=
    drain_divides_text ((Origin.text ['a', 'b', 'c']).reader [.read]) ['a', 'b', 'c'] 2 _
      rfl (by decide) (by decide) hv
  obtain ⟨turns, hturns, -⟩ := hshared { reader := _, handles := 3 } rfl (by decide)
  exact ⟨hv, by decide, hdrained (hcount.1 rfl), turns, hturns⟩

end Crew
end Retrace
