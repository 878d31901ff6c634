import Retrace.Source
import Retrace.Proofs.WellFormed

/-! Reading on, in whatever mixture of calls. What is delivered is the text between the cursors
before and after, each character once and in order, whether it comes alone, in a block or in
a drain, and whether the reader is called by its owner or on loan. -/
namespace Retrace
namespace Step

/-- The calls that read on, and those that leave cursor and text alone. -/
def readsOn : Step → Bool
  | .read | .next | .readInto .. | .drain | .ready | .look | .peek | .remainder | .snapshot | .canMark
  | .mark _ | .setLine _ | .position => true
  | _ => false

/-- The characters that a reply hands over. -/
def delivered (step : Step) (reply : Reply) : List Char :=
  match step, reply with
  | .read, ⟨.ok (.char c), _⟩ | .next, ⟨.ok (.char c), _⟩ => c.toList
  | .readInto _ offset _, ⟨.ok (.count (some n)), some dest⟩ => (dest.drop offset).take n
  | .drain, ⟨.ok (.text cs), _⟩ => cs
  | _, _ => []

def newText? : Step → Option (List Char)
  | .load text => some text
  | .clear => some []
  | _ => none

end Step

/-- A call on a reader, by its owner or by someone who has it on loan. -/
inductive Access where
  | own (step : Step)
  | lent (q : Query)
  deriving DecidableEq, Repr

def Access.step : Access → Step
  | own step => step
  | lent q => q.step

theorem Reader.overlay_drop_take {dest block : List Char} {offset : Nat}
    (h : offset ≤ dest.length) : ((overlay dest offset block).drop offset).take block.length = block := by
  have ht : (dest.take offset).length = offset := by rw [List.length_take]; omega
  rw [overlay, List.append_assoc, List.drop_append_of_le_length (Nat.le_of_eq ht.symm),
    List.drop_eq_nil_of_le (Nat.le_of_eq ht), List.nil_append, List.take_left]

namespace Reader

def access (r : Reader) : Access → Turn Reader Reply
  | .own step => r.perform step
  | .lent q => ((Source.query (Loan.mk r) q).map .ok).lift (·.source)

def afterAccesses (r : Reader) : List Access → Reader
  | [] => r
  | a :: accesses => (r.access a).after.afterAccesses accesses

/-- All characters that the calls hand over, in order. -/
def deliveredBy (r : Reader) : List Access → List Char
  | [] => []
  | a :: accesses => a.step.delivered (r.access a).answer ++ (r.access a).after.deliveredBy accesses

theorem access_eq_perform (r : Reader) (a : Access) : r.access a = r.perform a.step := by
  cases a with
  | own step => rfl
  | lent q => cases q <;> rfl

theorem afterAccesses_eq_afterAll (r : Reader) (accesses : List Access) :
    r.afterAccesses accesses = r.afterAll (accesses.map Access.step) := by
  induction accesses generalizing r with
  | nil => rfl
  | cons a accesses ih => rw [afterAccesses, ih, access_eq_perform, List.map_cons, afterAll_cons]

/-- A reader whose rest begins with some characters, and the reader behind them. -/
structure Delivers (r : Reader) (got : List Char) (s : Reader) : Prop where
  text : s.text = r.text
  rest : r.rest = got ++ s.rest
  cursor : s.cursor = r.cursor + got.length

namespace Delivers

variable {r s t : Reader} {got more : List Char}

theorem nothing (htext : s.text = r.text) (hcursor : s.cursor = r.cursor) : Delivers r [] s where
  text := htext
  rest := by rw [List.nil_append, Reader.rest, Reader.rest, htext, hcursor]
  cursor := hcursor

theorem trans (h : Delivers r got s) (h' : Delivers s more t) : Delivers r (got ++ more) t where
  text := h'.text.trans h.text
  rest := by rw [h.rest, h'.rest, List.append_assoc]
  cursor := by rw [h'.cursor, h.cursor, List.length_append, Nat.add_assoc]

theorem eq_slice (h : Delivers r got s) {text : List Char} (ht : r.text = some text) :
    got = (text.take s.cursor).drop r.cursor := by
  have hrest := h.rest
  rw [rest_of_open ht] at hrest
  rw [List.drop_take, hrest, h.cursor, Nat.add_sub_cancel_left, List.take_left]

theorem head?_rest (h : Delivers r got s) {c : Char} (hc : got.head? = some c) :
    r.rest.head? = some c := by
  rw [h.rest, List.head?_append, hc]
  rfl

end Delivers

theorem delivers_next (r : Reader) : Delivers r r.next.answer.toList r.next.after := by
  cases hr : r.rest with
  | nil =>
    rw [answer_next, after_next, hr, if_pos rfl]
    exact .nothing rfl rfl
  | cons c cs =>
    rw [next_of_rest_cons hr]
    exact ⟨rfl, by rw [hr, rest_succ hr]; rfl, rfl⟩

theorem delivers_read (r : Reader) :
    Delivers r (Step.delivered .read (r.perform .read).answer) (r.perform .read).after := by
  cases hr : r.rest with
  | nil =>
    cases ht : r.text with
    | none =>
      simp only [perform, read, withText_of_closed ht]
      exact .nothing rfl rfl
    | some text =>
      simp only [perform, read_of_rest_nil ht hr]
      exact .nothing rfl rfl
  | cons c cs =>
    simp only [perform, read_of_rest_cons hr]
    exact ⟨rfl, by rw [hr]; exact congrArg (c :: ·) (rest_succ hr).symm, rfl⟩

theorem delivers_drain (r : Reader) : Delivers r r.drain.answer r.drain.after := by
  fun_induction drain r with
  | case1 r h =>
    have hnext := delivers_next r
    rwa [h] at hnext
  | case2 r c h turn ih =>
    have hnext := delivers_next r
    rw [h] at hnext
    exact hnext.trans ih

theorem delivers_readInto (r : Reader) (dest : List Char) (offset max : Nat) :
    Delivers r (Step.delivered (.readInto dest offset max) (r.perform (.readInto dest offset max)).answer)
      (r.perform (.readInto dest offset max)).after := by
  rcases r with ⟨_ | text, cursor, marks, line⟩
  · exact .nothing rfl rfl
  by_cases hfit : dest.length < offset + max
  · simp only [perform, readInto, if_pos hfit]
    exact .nothing rfl rfl
  by_cases hmax : max = 0
  · simp only [perform, readInto, if_neg hfit, if_pos hmax]
    exact .nothing rfl rfl
  by_cases hend : text.length ≤ cursor
  · simp only [perform, readInto, if_neg hfit, if_neg hmax, if_pos hend]
    exact .nothing rfl rfl
  · simp only [perform, readInto, if_neg hfit, if_neg hmax, if_neg hend]
    -- the block counts as delivered by what is found in the destination
    have hblock : ((overlay dest offset ((text.drop cursor).take max)).drop offset).take
        ((text.drop cursor).take max).length = (text.drop cursor).take max :=
      overlay_drop_take (by omega)
    have hrest : text.drop cursor = (text.drop cursor).take max ++
        text.drop (cursor + ((text.drop cursor).take max).length) := by
      rw [← List.drop_drop]
      exact (List.prefix_iff_eq_append.1 (List.take_prefix max _)).symm
    exact {
      text := rfl
      rest := hrest.trans (congrArg (· ++ _) hblock.symm)
      cursor := congrArg (cursor + List.length ·) hblock.symm }

theorem delivers_mark (r : Reader) (limit : Int) : Delivers r [] (r.mark limit).after := by
  rcases r with ⟨_ | text, cursor, marks, line⟩ <;>
  · simp only [mark, withText]
    split <;> exact .nothing rfl rfl

theorem delivers_perform (r : Reader) {step : Step} (h : step.readsOn = true) :
    Delivers r (step.delivered (r.perform step).answer) (r.perform step).after := by
  cases step with
  | read => exact delivers_read r
  | next => exact delivers_next r
  | drain => exact delivers_drain r
  | readInto dest offset max => exact delivers_readInto r dest offset max
  | mark limit => exact delivers_mark r limit
  | peek => exact .nothing (congrArg Reader.text r.after_peek) (congrArg Reader.cursor r.after_peek)
  | ready | look | remainder | snapshot | canMark | setLine | position => exact .nothing rfl rfl
  | load | clear | close | skip | unread | unreadOne | reset | rewind | release | peekCode
  | nextCode => cases h

/-- A mixture of calls delivers one stretch of the text. -/
theorem delivers_accesses (r : Reader) {accesses : List Access}
    (h : ∀ a ∈ accesses, a.step.readsOn = true) :
    Delivers r (r.deliveredBy accesses) (r.afterAccesses accesses) := by
  induction accesses generalizing r with
  | nil => exact .nothing rfl rfl
  | cons a accesses ih =>
    have hfirst := delivers_perform r (h a List.mem_cons_self)
    have hlater := ih (r.access a).after fun b hb => h b (List.mem_cons_of_mem _ hb)
    rw [← access_eq_perform] at hfirst
    exact hfirst.trans hlater

/-- A drain asks for one character at a time, once more than there are characters left, and only
the last time there is none. -/
theorem drain_eq_nexts (r : Reader) :
    r.replies (List.replicate (r.rest.length + 1) .next) =
        r.rest.map (fun c => .ok (.char (some c))) ++ [.ok (.char none)] ∧
      r.drain.after = r.afterAll (List.replicate (r.rest.length + 1) .next) ∧
      r.drain.log = r.logAll (List.replicate (r.rest.length + 1) .next) := by
  fun_induction drain r with
  | case1 r h =>
    have hr : r.rest = [] := List.head?_eq_none_iff.1 (r.answer_next.symm.trans h)
    rw [hr]
    refine ⟨?_, rfl, (List.append_nil _).symm⟩
    change [Reply.ok (.char r.next.answer)] = _
    rw [h]
    rfl
  | case2 r c h turn ih =>
    have hr := rest_eq_cons_of_next h
    obtain ⟨hreplies, hafter, hlog⟩ := ih
    rw [hr, List.length_cons, List.replicate_succ]
    refine ⟨?_, hafter, ?_⟩
    · rw [replies_cons]
      change Reply.ok (.char r.next.answer) :: r.next.after.replies _ = _
      rw [h, hreplies]
      rfl
    · rw [logAll_cons]
      exact congrArg (r.next.log ++ ·) hlog

/-- The text that a history last put in the place of another one. -/
def lastText (r : Reader) (text : List Char) (steps : List Step) : List Char :=
  ((r.granted steps).filterMap Step.newText?).getLast?.getD text

theorem lastText_cons (r : Reader) (text : List Char) (step : Step) (steps : List Step) :
    r.lastText text (step :: steps) = (r.perform step).after.lastText
      (if (r.perform step).answer.isRefusal then text else step.newText?.getD text) steps := by
  rw [lastText, granted_cons]
  split
  · rfl
  · cases h : step.newText? with
    | none => simp [lastText, h]
    | some new => simp [lastText, h, List.getLast?_cons]

theorem text_perform_of_open {r : Reader} {text : List Char} (ht : r.text = some text) {step : Step}
    (hs : step ≠ .close) :
    (r.perform step).after.text =
      some (if (r.perform step).answer.isRefusal then text else step.newText?.getD text) := by
  rw [text_perform]
  cases step with
  | load | clear =>
    simp [perform, load, clear, withText_of_open ht, textAfter, ht, Reply.isRefusal, Reply.ofExcept,
      Except.map, Step.newText?]
  | close => exact absurd rfl hs
  | _ => simp [textAfter, ht, Step.newText?]

theorem text_afterAll {r : Reader} {text : List Char} (ht : r.text = some text) {steps : List Step}
    (ho : (r.afterAll steps).isClosed = false) :
    (r.afterAll steps).text = some (r.lastText text steps) := by
  induction steps generalizing r text with
  | nil => exact ht
  | cons step steps ih =>
    have hs : step ≠ .close := by
      rintro rfl
      simp [isClosed_afterAll, isClosed_perform] at ho
    rw [lastText_cons]
    exact ih (text_perform_of_open ht hs) ho

/-- Between two states of a reader on a text, all that was passed over was delivered. -/
structure Continues (text : List Char) (start : Reader) (got : List Char) (finish : Reader) :
    Prop where
  range : start.status.offset ≤ finish.status.offset ∧ finish.status.offset ≤ text.length
  delivered : got = (text.take finish.status.offset).drop start.status.offset
  remainder : start.remainder = .ok (got ++ finish.rest) ∧ finish.remainder = .ok finish.rest
  snapshot : start.snapshot = .ok text ∧ finish.snapshot = .ok text

/-- A look ahead shows the first character of the rest. It is the next one to be delivered, in
whatever way, and nothing is shown where nothing is left. -/
structure Foretells (r : Reader) (rest : List Char) : Prop where
  shown : ∀ a : Access, a.step = .peek ∨ a.step = .look → (r.access a).answer = .ok (.char rest.head?)
  next_read : ∀ accesses, (∀ a ∈ accesses, a.step.readsOn = true) → r.deliveredBy accesses = [] →
    ∀ a : Access, a.step = .read ∨ a.step = .next →
      ((r.afterAccesses accesses).access a).answer = .ok (.char rest.head?)
  next_delivered : ∀ accesses, (∀ a ∈ accesses, a.step.readsOn = true) →
    ∀ c, (r.deliveredBy accesses).head? = some c → rest.head? = some c

/-- A drain delivers the rest, by one more call than it has characters, up to the end. -/
structure Drains (r : Reader) (rest : List Char) (length : Nat) : Prop where
  answer : r.drain.answer = rest
  calls : r.drain.after = r.afterAll (List.replicate (rest.length + 1) .next) ∧
    r.drain.log = r.logAll (List.replicate (rest.length + 1) .next)
  replies : r.replies (List.replicate (rest.length + 1) .next) =
    rest.map (fun c => .ok (.char (some c))) ++ [.ok (.char none)]
  offset : r.drain.after.status.offset = length

theorem answer_access_of_open {r : Reader} {text : List Char} (ht : r.text = some text) {a : Access}
    (ha : a.step ∈ [.peek, .look, .read, .next]) : (r.access a).answer = .ok (.char r.rest.head?) := by
  rw [access_eq_perform]
  simp only [List.mem_cons, List.not_mem_nil, or_false] at ha
  rcases ha with h | h | h | h <;> rw [h]
  · exact congrArg (Reply.ok ∘ .char) r.answer_peek
  · simp [perform, tell, look, contents, ht, rest_of_open ht, Except.map, Reply.ofExcept, Reply.ok]
  · cases hr : r.rest with
    | nil => rw [perform, read_of_rest_nil ht hr]; rfl
    | cons c cs => rw [perform, read_of_rest_cons hr]; rfl
  · exact congrArg (Reply.ok ∘ .char) r.answer_next

theorem remainder_of_open {r : Reader} {text : List Char} (ht : r.text = some text) :
    r.remainder = .ok r.rest := by
  simp [remainder, contents, ht, rest_of_open ht, Except.map]

theorem Delivers.continues {r s : Reader} {got text : List Char} (h : Delivers r got s)
    (ht : r.text = some text) (hs : s.WellFormed) : Continues text r got s where
  range := by
    have hle := hs.cursor_le (by simp [h.text, ht])
    rw [length, h.text, ht, Option.getD_some] at hle
    exact ⟨Nat.le.intro h.cursor.symm, hle⟩
  delivered := h.eq_slice ht
  remainder := by
    refine ⟨?_, remainder_of_open (h.text.trans ht)⟩
    rw [remainder_of_open ht, h.rest]
  snapshot := by simp [snapshot, contents, h.text, ht]

theorem foretells_rest {r : Reader} {text : List Char} (ht : r.text = some text) :
    Foretells r r.rest where
  shown a ha := answer_access_of_open ht (by rcases ha with h | h <;> simp [h])
  next_read accesses hall hnone a ha := by
    have h := r.delivers_accesses hall
    have hrest := h.rest
    rw [hnone, List.nil_append] at hrest
    rw [hrest]
    exact answer_access_of_open (h.text.trans ht) (by rcases ha with h | h <;> simp [h])
  next_delivered accesses ha c hc := (r.delivers_accesses ha).head?_rest hc

theorem WellFormed.drains {r : Reader} (hr : r.WellFormed) {text : List Char} (ht : r.text = some text) :
    Drains r r.rest text.length where
  answer := r.answer_drain
  calls := r.drain_eq_nexts.2
  replies := r.drain_eq_nexts.1
  offset := by
    have hle := hr.cursor_le (by simp [ht])
    rw [status_offset, (r.delivers_drain).cursor, answer_drain, length_rest]
    simp only [Reader.length, ht, Option.getD_some] at hle ⊢
    omega

end Reader

namespace Origin

def firstText : Origin → List Char
  | .text cs => cs
  | _ => []

/-- The text of the last call of a history that replaced it, or the first text. -/
def lastText (origin : Origin) (past : List Step) : List Char :=
  origin.build.after.lastText origin.firstText past

theorem text_reader (origin : Origin) {past : List Step}
    (ho : (origin.reader past).isClosed = false) :
    (origin.reader past).text = some (origin.lastText past) := by
  have ht : origin.build.after.text = some origin.firstText := by cases origin <;> rfl
  exact Reader.text_afterAll ht ho

end Origin

/-- Whatever calls an open reader is read by, they deliver the text between the cursors, once and in
order; what they leave is what looks ahead and drains then find. -/
theorem Origin.mixture_delivers_each_once (origin : Origin) (past : List Step)
    (ho : (origin.reader past).isClosed = false) (accesses : List Access)
    (ha : ∀ a ∈ accesses, a.step.readsOn = true) :
    let start := origin.reader past
    let finish := start.afterAccesses accesses
    Reader.Continues (origin.lastText past) start (start.deliveredBy accesses) finish ∧
      finish.Foretells finish.rest ∧ finish.Drains finish.rest (origin.lastText past).length := by
  intro start finish
  have ht := origin.text_reader ho
  have hdelivers := start.delivers_accesses ha
  have hfinish : finish.text = some (origin.lastText past) := hdelivers.text.trans ht
  have hw : finish.WellFormed := by
    have hlater := (origin.wellFormed_reader past).afterAll (accesses.map Access.step)
    rwa [← Reader.afterAccesses_eq_afterAll] at hlater
  exact ⟨hdelivers.continues ht hw, Reader.foretells_rest hfinish, hw.drains hfinish⟩

/-- A character, a block that is refused, one that comes up short, a look ahead on loan and a mark,
behind a text that was replaced. -/
theorem mixture_delivers_each_once_of_five :
    ((Origin.text ['x']).reader [.read, .load ['a', 'b', 'c', 'd'], .skip 1]).isClosed = false ∧
    (∀ a ∈ [Access.lent .next, .own (.readInto ['-', '-'] 1 2), .lent .peek,
      .own (.readInto ['-', '-', '-'] 1 1), .own (.mark 0)], a.step.readsOn = true) ∧
    ((Origin.text ['x']).reader [.read, .load ['a', 'b', 'c', 'd'], .skip 1]).deliveredBy
      [.lent .next, .own (.readInto ['-', '-'] 1 2), .lent .peek,
        .own (.readInto ['-', '-', '-'] 1 1), .own (.mark 0)] = ['b', 'c'] ∧
    Reader.Continues ['a', 'b', 'c', 'd']
      ((Origin.text ['x']).reader [.read, .load ['a', 'b', 'c', 'd'], .skip 1]) ['b', 'c']
      (((Origin.text ['x']).reader [.read, .load ['a', 'b', 'c', 'd'], .skip 1]).afterAccesses
        [.lent .next, .own (.readInto ['-', '-'] 1 2), .lent .peek,
          .own (.readInto ['-', '-', '-'] 1 1), .own (.mark 0)]) := by
  have ho : ((Origin.text ['x']).reader [.read, .load ['a', 'b', 'c', 'd'], .skip 1]).isClosed =
    false := rfl
  have ha : ∀ a ∈ [Access.lent .next, .own (.readInto ['-', '-'] 1 2), .lent .peek,
      .own (.readInto ['-', '-', '-'] 1 1), .own (.mark 0)], a.step.readsOn = true := by decide
  exact ⟨ho, ha, rfl, ((Origin.text ['x']).mixture_delivers_each_once _ ho _ ha).1⟩

end Retrace
