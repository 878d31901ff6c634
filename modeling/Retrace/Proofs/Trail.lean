import Retrace.Proofs.WellFormed

/-! The log of a reader tells its life: whether it is closed, how long its text is and where the
cursor stands can be read off the messages and fields of its records alone, from the first on, and every
record fits in with those before it. -/
namespace Retrace

/-- What a log tells of a reader. -/
structure Trail where
  closed : Bool := false
  length : Int := 0
  cursor : Int := 0
  deriving DecidableEq, Repr

namespace Trail

/-- The trail after one more record, as long as that is one which readers write. -/
def follow (t : Trail) (r : Event.Record) : Option Trail :=
  if r.message = "stream hard reset" then some { t with length := 0, cursor := 0 }
  else if r.message = "stream opened" then (r.number? "len").map fun length => { t with length }
  else if r.message = "stream closed" then some { t with closed := true, length := 0 }
  else if r.message = "read" then (r.number? "pos").map fun pos => { t with cursor := pos + 1 }
  else if r.message = "read_into" then
    (r.number? "pos").bind fun pos => (r.number? "count").map fun count => { t with cursor := pos + count }
  else if r.message ∈ ["skip", "pushback", "mark", "reset", "rewind"] then
    (r.number? "pos").map fun pos => { t with cursor := pos }
  else if r.message ∈ ["peek reported as EOF", "getch reported as EOF"] then some t
  else none

/-- A record says of the cursor before it what the trail says. -/
structure Fits (t : Trail) (r : Event.Record) : Prop where
  pos : r.message ∈ ["read", "read_into", "mark"] → r.number? "pos" = some t.cursor
  offset : r.message = "stream closed" → r.number? "offset" = some t.cursor
  applied : r.message = "skip" →
    ∃ pos, r.number? "pos" = some pos ∧ r.number? "applied" = some (pos - t.cursor)
  count : r.message = "pushback" →
    ∃ count, r.number? "count" = some count ∧ r.number? "pos" = some (t.cursor - count)

/-- Every record of a log fits in with those before it. -/
def Consistent (t : Trail) : List Event.Record → Prop
  | [] => True
  | r :: log => t.Fits r ∧ ∃ later, t.follow r = some later ∧ later.Consistent log

/-! The same for events. -/

def after (t : Trail) : Event → Trail
  | .cleared => { t with length := 0, cursor := 0 }
  | .loaded length => { t with length }
  | .closed _ => { t with closed := true, length := 0 }
  | .read cursor _ => { t with cursor := cursor + 1 }
  | .readInto cursor count => { t with cursor := cursor + count }
  | .skipped _ _ cursor | .unread _ cursor | .marked cursor _ | .reset cursor
  | .rewound cursor _ => { t with cursor }
  | .peekHid _ | .nextHid _ => t

def Meets (t : Trail) : Event → Prop
  | .read cursor _ | .readInto cursor _ | .marked cursor _ | .closed cursor => (cursor : Int) = t.cursor
  | .skipped _ applied cursor => applied = cursor - t.cursor
  | .unread count cursor => (cursor : Int) = t.cursor - count
  | _ => True

theorem follow_record (t : Trail) (e : Event) : t.follow e.record = some (t.after e) := by
  cases e <;> simp [follow, after, Event.record, Event.message, Event.fields, Event.Record.number?,
    Event.Field.number?, List.lookup_cons]

theorem Meets.fits {t : Trail} {e : Event} (h : t.Meets e) : t.Fits e.record := by
  cases e <;> constructor <;> simp_all [Meets, Event.record, Event.message, Event.fields,
    Event.Record.number?, Event.Field.number?, List.lookup_cons]

theorem Consistent.append {t u : Trail} {xs ys : List Event.Record} (hx : t.Consistent xs)
    (hu : xs.foldlM follow t = some u) (hy : u.Consistent ys) : t.Consistent (xs ++ ys) := by
  induction xs generalizing t with
  | nil =>
    obtain rfl := Option.some.inj hu
    exact hy
  | cons r xs ih =>
    obtain ⟨hfits, later, hlater, hxs⟩ := hx
    rw [List.foldlM_cons, hlater] at hu
    exact ⟨hfits, later, hlater, ih hxs hu⟩

end Trail

def Event.held? : Event → Option Nat
  | .marked _ held | .rewound _ held => some held
  | _ => none

theorem Event.exists_held? {e : Event} (h : e.record.message ∈ ["mark", "rewind"]) :
    ∃ held : Nat, e.held? = some held ∧ e.record.number? "held" = some held := by
  cases e <;> simp_all [record, message, fields, held?, Record.number?, Field.number?, List.lookup_cons]

namespace Reader

def trail (r : Reader) : Trail := ⟨r.status.isClosed, r.status.length, r.status.offset⟩

/-- A log that leads from one reader to another. -/
structure Recounts (r : Reader) (log : List Event) (s : Reader) : Prop where
  consistent : r.trail.Consistent (log.map Event.record)
  reached : (log.map Event.record).foldlM Trail.follow r.trail = some s.trail

namespace Recounts

variable {r s t : Reader}

theorem silent (h : r.trail = s.trail) : Recounts r [] s := ⟨trivial, congrArg some h⟩

theorem single {e : Event} (hm : r.trail.Meets e) (h : r.trail.after e = s.trail) :
    Recounts r [e] s where
  consistent := ⟨hm.fits, _, Trail.follow_record _ e, trivial⟩
  reached := by
    rw [List.map_singleton, List.foldlM_cons, Trail.follow_record, h]
    rfl

theorem trans {xs ys : List Event} (h : Recounts r xs s) (h' : Recounts s ys t) :
    Recounts r (xs ++ ys) t where
  consistent := by
    rw [List.map_append]
    exact h.consistent.append h.reached h'.consistent
  reached := by
    rw [List.map_append, List.foldlM_append, h.reached]
    exact h'.reached

end Recounts

theorem recounts_read (r : Reader) : Recounts r r.read.log r.read.after := by
  rcases r with ⟨_ | text, cursor, marks, line⟩
  · exact .silent rfl
  · simp only [read, withText]
    split
    · exact .single rfl rfl
    · exact .silent rfl

theorem recounts_next (r : Reader) : Recounts r r.next.log r.next.after := by
  have hread := recounts_read r
  cases ha : r.read.answer with
  | ok c =>
    rw [next_of_read_ok ha]
    exact hread
  | error fault =>
    rw [next_of_read_error ha]
    exact hread.trans (.single (e := .nextHid fault) trivial rfl)

theorem recounts_drain (r : Reader) : Recounts r r.drain.log r.drain.after := by
  fun_induction drain r with
  | case1 r h => exact recounts_next r
  | case2 r c h turn ih => exact (recounts_next r).trans ih

theorem recounts_readInto (r : Reader) (dest : List Char) (offset max : Nat) :
    Recounts r (r.readInto dest offset max).log (r.readInto dest offset max).after := by
  rcases r with ⟨_ | text, cursor, marks, line⟩
  · exact .silent rfl
  · simp only [readInto]
    split
    · exact .silent rfl
    split
    · exact .silent rfl
    split
    · exact .silent rfl
    · exact .single rfl rfl

theorem recounts_skip (r : Reader) (distance : Int) :
    Recounts r (r.skip distance).log (r.skip distance).after := by
  rcases r with ⟨_ | text, cursor, marks, line⟩
  · exact .silent rfl
  · refine .single ?_ rfl
    simp only [trail, status, Trail.Meets]
    omega

theorem recounts_unread (r : Reader) (count : Nat) :
    Recounts r (r.unread count).log (r.unread count).after := by
  rcases r with ⟨_ | text, cursor, marks, line⟩
  · exact .silent rfl
  · simp only [unread, withText]
    split
    · exact .silent rfl
    · refine .single ?_ rfl
      simp only [trail, status, Trail.Meets]
      omega

theorem recounts_mark (r : Reader) (limit : Int) :
    Recounts r (r.mark limit).log (r.mark limit).after := by
  unfold mark
  split
  · exact .silent rfl
  · rcases r with ⟨_ | text, cursor, marks, line⟩
    · exact .silent rfl
    · exact .single rfl rfl

theorem recounts_reset (r : Reader) : Recounts r r.reset.log r.reset.after := by
  rcases r with ⟨_ | text, cursor, marks, line⟩
  · exact .silent rfl
  · simp only [reset, withText]
    cases marks.target? with
    | none => exact .silent rfl
    | some target => exact .single trivial rfl

theorem recounts_rewind (r : Reader) : Recounts r r.rewind.log r.rewind.after := by
  rcases r with ⟨_ | text, cursor, marks, line⟩
  · exact .silent rfl
  · simp only [rewind, withText]
    cases marks.target? with
    | none => exact .silent rfl
    | some target => exact .single trivial rfl

theorem recounts_release (r : Reader) : Recounts r r.release.log r.release.after := by
  rcases r with ⟨_ | text, cursor, marks, line⟩
  · exact .silent rfl
  · simp only [release, withText]
    cases marks.newest <;> exact .silent rfl

theorem recounts_peek (r : Reader) : Recounts r r.peek.log r.peek.after := by
  unfold peek
  cases r.look with
  | ok c => exact .silent rfl
  | error fault => exact .single trivial rfl

theorem recounts_perform (r : Reader) (step : Step) :
    Recounts r (r.perform step).log (r.perform step).after := by
  cases step with
  | load text =>
    rcases r with ⟨_ | old, cursor, marks, line⟩
    · exact .silent rfl
    · have hcleared : Recounts ⟨some old, cursor, marks, line⟩ [.cleared] ⟨some [], 0, marks, line⟩ :=
        .single trivial rfl
      exact hcleared.trans (.single (e := .loaded text.length) trivial rfl)
  | clear =>
    rcases r with ⟨_ | old, cursor, marks, line⟩
    · exact .silent rfl
    · exact .single trivial rfl
  | close =>
    rcases r with ⟨_ | old, cursor, marks, line⟩
    · exact .silent rfl
    · exact .single rfl rfl
  | read => exact recounts_read r
  | readInto dest offset max => exact recounts_readInto r dest offset max
  | skip distance => exact recounts_skip r distance
  | unread count => exact recounts_unread r count
  | unreadOne => exact recounts_unread r 1
  | mark limit => exact recounts_mark r limit
  | reset => exact recounts_reset r
  | rewind => exact recounts_rewind r
  | release => exact recounts_release r
  | peek | peekCode => exact recounts_peek r
  | next | nextCode => exact recounts_next r
  | drain => exact recounts_drain r
  | ready | look | remainder | snapshot | canMark | setLine | position => exact .silent rfl

theorem recounts_logAll (r : Reader) (steps : List Step) :
    Recounts r (r.logAll steps) (r.afterAll steps) := by
  induction steps generalizing r with
  | nil => exact .silent rfl
  | cons step steps ih => exact (recounts_perform r step).trans (ih _)

theorem held?_read (r : Reader) : r.read.log.filterMap Event.held? = [] := by
  rcases r with ⟨_ | text, cursor, marks, line⟩
  · rfl
  · cases hc : text[cursor]? <;> simp [read, withText, hc, Event.held?]

theorem held?_next (r : Reader) : r.next.log.filterMap Event.held? = [] := by
  have hread := held?_read r
  cases ha : r.read.answer with
  | ok c => rw [next_of_read_ok ha, hread]
  | error fault =>
    rw [next_of_read_error ha, List.filterMap_append, hread]
    rfl

theorem held?_drain (r : Reader) : r.drain.log.filterMap Event.held? = [] := by
  fun_induction drain r with
  | case1 r h => exact held?_next r
  | case2 r c h turn ih => rw [List.filterMap_append, held?_next, ih, List.append_nil]

theorem held?_unread (r : Reader) (count : Nat) :
    (r.unread count).log.filterMap Event.held? = [] := by
  rcases r with ⟨_ | text, cursor, marks, line⟩
  · rfl
  · simp only [unread, withText]
    split <;> rfl

theorem held?_readInto (r : Reader) (dest : List Char) (offset max : Nat) :
    (r.readInto dest offset max).log.filterMap Event.held? = [] := by
  rcases r with ⟨_ | text, cursor, marks, line⟩
  · rfl
  · simp only [readInto]
    split
    · rfl
    split
    · rfl
    split <;> rfl

theorem held?_of_onlyMoves (r : Reader) {step : Step} (h : step.onlyMoves = true) :
    (r.perform step).log.filterMap Event.held? = [] := by
  cases step with
  | read => exact held?_read r
  | readInto dest offset max => exact held?_readInto r dest offset max
  | skip distance => rcases r with ⟨_ | text, cursor, marks, line⟩ <;> rfl
  | unread count => exact held?_unread r count
  | unreadOne => exact held?_unread r 1
  | peek | peekCode => rcases r with ⟨_ | text, cursor, marks, line⟩ <;> rfl
  | next | nextCode => exact held?_next r
  | drain => exact held?_drain r
  | ready | look | remainder | snapshot | canMark | position => rfl
  | load | clear | close | mark | reset | rewind | release | setLine => cases h

/-- The marks that an event says are held are those held after the call. -/
theorem held_of_mem_log {r : Reader} {step : Step} {held : Nat}
    (h : held ∈ (r.perform step).log.filterMap Event.held?) :
    held = (r.perform step).after.marks.held.length := by
  cases hm : step.onlyMoves with
  | true =>
    rw [held?_of_onlyMoves r hm] at h
    cases h
  | false =>
    rcases r with ⟨_ | text, cursor, marks, line⟩
    · cases step with
      | mark limit =>
        simp only [perform, mark, withText] at h
        split at h <;> cases h
      | load | clear | close | reset | rewind | release | setLine => cases h
      | _ => cases hm
    · cases step with
      | mark limit =>
        simp only [perform, mark, withText] at h ⊢
        split at h
        · cases h
        · rename_i hl
          rw [if_neg hl]
          exact List.mem_singleton.1 h
      | reset =>
        simp only [perform, reset, withText] at h
        cases ht : marks.target? <;> simp [ht, Event.held?] at h
      | rewind =>
        simp only [perform, rewind, withText] at h ⊢
        cases ht : marks.target? with
        | none => simp [ht] at h
        | some target =>
          rw [ht] at h
          exact List.mem_singleton.1 h
      | release =>
        simp only [perform, release, withText] at h
        cases hn : marks.newest <;> simp [hn] at h
      | load | clear | close | setLine => cases h
      | _ => cases hm

theorem unmoved_of_silent {r : Reader} {step : Step} (h : (r.perform step).log = []) :
    (r.perform step).after.text = r.text ∧ (r.perform step).after.trail = r.trail := by
  have hreached := (recounts_perform r step).reached
  rw [h] at hreached
  refine ⟨?_, (Option.some.inj hreached).symm⟩
  rw [text_perform]
  cases step with
  | load | clear | close =>
    rcases r with ⟨_ | text, cursor, marks, line⟩
    · rfl
    · cases h
  | _ => rfl

end Reader

namespace Origin

/-- All that was logged, from the making of the reader on. -/
def log (origin : Origin) (steps : List Step) : List Event :=
  origin.build.log ++ origin.build.after.logAll steps

def records (origin : Origin) (steps : List Step) : List Event.Record :=
  (origin.log steps).map Event.record

theorem log_consistent_and_reached (origin : Origin) (steps : List Step) :
    Trail.Consistent {} (origin.records steps) ∧
      (origin.records steps).foldlM Trail.follow {} = some (origin.reader steps).trail := by
  have hbuild : Trail.Consistent {} (origin.build.log.map Event.record) ∧
      (origin.build.log.map Event.record).foldlM Trail.follow {} = some origin.build.after.trail := by
    cases origin with
    | blank | tuned => exact ⟨trivial, rfl⟩
    | text cs =>
      have hloaded := Trail.follow_record {} (.loaded cs.length)
      have hmeets : Trail.Meets {} (.loaded cs.length) := trivial
      refine ⟨⟨hmeets.fits, _, hloaded, trivial⟩, ?_⟩
      simp only [build, List.map_singleton, List.foldlM_cons, hloaded]
      rfl
  have hlater := Reader.recounts_logAll origin.build.after steps
  rw [records, log, List.map_append, List.foldlM_append, hbuild.2]
  exact ⟨hbuild.1.append hbuild.2 hlater.consistent, hlater.reached⟩

end Origin

/-- The log of a reader, folded over its messages and fields, tells whether it is closed, the length of its
text and the cursor. A record that counts marks counts those held after the call, and a call that writes
no record leaves all this alone. -/
theorem Origin.log_tells_lifecycle (origin : Origin) (steps : List Step) (step : Step) :
    let r := origin.reader steps
    let turn := r.perform step
    (origin.records steps).foldlM Trail.follow {} =
      some ⟨r.status.isClosed, r.status.length, r.status.offset⟩ ∧
    Trail.Consistent {} (origin.records steps) ∧
    (∀ record ∈ turn.log.map Event.record, record.message ∈ ["mark", "rewind"] →
      record.number? "held" = some (turn.after.status.marksHeld : Int)) ∧
    (turn.log = [] → turn.after.text = r.text ∧ turn.after.status.isClosed = r.status.isClosed ∧
      turn.after.status.length = r.status.length ∧ turn.after.status.offset = r.status.offset) := by
  intro r turn
  obtain ⟨hconsistent, hreached⟩ := origin.log_consistent_and_reached steps
  refine ⟨hreached, hconsistent, fun record hrecord hmessage => ?_, fun hsilent => ?_⟩
  · obtain ⟨e, he, rfl⟩ := List.mem_map.1 hrecord
    obtain ⟨held, hheld, hfield⟩ := Event.exists_held? hmessage
    rw [hfield, Reader.held_of_mem_log (List.mem_filterMap.2 ⟨e, he, hheld⟩)]
    rfl
  · obtain ⟨htext, htrail⟩ := Reader.unmoved_of_silent hsilent
    have hclosed := congrArg Trail.closed htrail
    have hlength := congrArg Trail.length htrail
    have hcursor := congrArg Trail.cursor htrail
    exact ⟨htext, hclosed, Int.ofNat.inj hlength, Int.ofNat.inj hcursor⟩

/-- Two ways to give up the second of two marks: going back to it is logged, with the one mark
that is left, and letting it go is not. -/
theorem log_tells_rewind_and_release :
    ((((Origin.tuned { markDepth := 2 }).reader
          [.load ['a', 'b'], .mark 0, .read, .mark 0, .read]).perform .rewind).log.map Event.record =
        [⟨.trace, "rewind", [("pos", .number 1), ("held", .number 1)]⟩] ∧
      (1 : Int) = (((Origin.tuned { markDepth := 2 }).reader
        [.load ['a', 'b'], .mark 0, .read, .mark 0, .read]).perform .rewind).after.status.marksHeld) ∧
    (((Origin.tuned { markDepth := 2 }).reader
          [.load ['a', 'b'], .mark 0, .read, .mark 0, .read]).perform .release).log = [] ∧
    (((Origin.tuned { markDepth := 2 }).reader
          [.load ['a', 'b'], .mark 0, .read, .mark 0, .read]).perform .release).after.status.offset = 2 ∧
    ((Origin.tuned { markDepth := 2 }).records
        [.load ['a', 'b'], .mark 0, .read, .mark 0, .read]).foldlM Trail.follow {} =
      some ⟨false, 2, 2⟩ := by
  have hrewind := (Origin.tuned { markDepth := 2 }).log_tells_lifecycle
    [.load ['a', 'b'], .mark 0, .read, .mark 0, .read] .rewind
  have hrelease := (Origin.tuned { markDepth := 2 }).log_tells_lifecycle
    [.load ['a', 'b'], .mark 0, .read, .mark 0, .read] .release
  have hlogged : (((Origin.tuned { markDepth := 2 }).reader
      [.load ['a', 'b'], .mark 0, .read, .mark 0, .read]).perform .rewind).log.map Event.record =
        [⟨.trace, "rewind", [("pos", .number 1), ("held", .number 1)]⟩] := rfl
  have hheld := hrewind.2.2.1 _ (hlogged ▸ List.mem_singleton_self _) (by decide)
  exact ⟨⟨hlogged, Option.some.inj hheld⟩, rfl, (hrelease.2.2.2 rfl).2.2.2, hrelease.1⟩

end Retrace
