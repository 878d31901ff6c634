import Retrace.Proofs.Refusal

/-! Texts that can be read back. A number ends where the digits end, and a call's name where the first
colon stands, so positions with one text are one position. The same holds of refusals: not of any that
could be made up, but of those that readers give. -/
namespace Retrace

namespace Text

/-- What all characters of a text have in common tells it from what follows, if that begins with
another character. -/
theorem append_unique {p : Char → Bool} {u v x y : List Char} (hu : ∀ c ∈ u, p c = true)
    (hv : ∀ c ∈ v, p c = true) (hx : ∀ c ∈ x.head?, p c = false) (hy : ∀ c ∈ y.head?, p c = false)
    (h : u ++ x = v ++ y) : u = v ∧ x = y := by
  have htake {w z : List Char} (hw : ∀ c ∈ w, p c = true) (hz : ∀ c ∈ z.head?, p c = false) :
      (w ++ z).takeWhile p = w := by
    rw [List.takeWhile_append_of_pos hw]
    cases z with
    | nil => exact List.append_nil w
    | cons c z => rw [List.takeWhile_cons_of_neg (by simp [hz c rfl]), List.append_nil]
  have huv : u = v := by rw [← htake hu hx, h, htake hv hy]
  exact ⟨huv, List.append_cancel_left (huv ▸ h)⟩

/-- A text that does not go on with a number. -/
def EndsNumber (s : String) : Prop := ∀ c ∈ s.toList.head?, c.isDigit = false

instance (s : String) : Decidable (EndsNumber s) :=
  decidable_of_iff (s.toList.head?.all (!Char.isDigit ·) = true) (by simp [EndsNumber, Option.all_eq_true])

theorem EndsNumber.append {s : String} (h : EndsNumber s) (hne : s ≠ "") (t : String) :
    EndsNumber (s ++ t) := by
  obtain ⟨c, cs, hs⟩ := List.exists_cons_of_ne_nil (mt String.toList_eq_nil_iff.1 hne)
  rw [EndsNumber, hs] at h
  rw [EndsNumber, String.toList_append, hs]
  exact h

theorem toList_toString (n : Nat) : (toString n).toList = Nat.toDigits 10 n := by
  rw [Nat.toString_eq_ofList_toDigits, String.toList_ofList]

/-- A number is told from what follows, and by its digits from all others. -/
theorem number_unique {m n : Nat} {s t : String} (hs : EndsNumber s) (ht : EndsNumber t)
    (h : toString m ++ s = toString n ++ t) : m = n ∧ s = t := by
  have hdigits (k : Nat) : ∀ c ∈ (toString k).toList, c.isDigit = true := by
    intro c hc
    rw [toList_toString] at hc
    exact Nat.isDigit_of_mem_toDigits (by decide) (by decide) hc
  have hlists := congrArg String.toList h
  rw [String.toList_append, String.toList_append] at hlists
  obtain ⟨hmn, hst⟩ := append_unique (hdigits m) (hdigits n) hs ht hlists
  rw [toList_toString, toList_toString] at hmn
  refine ⟨?_, String.toList_inj.1 hst⟩
  rw [← Nat.ofDigitChars_ten_toDigits (n := m), hmn, Nat.ofDigitChars_ten_toDigits]

theorem toString_inj {m n : Nat} : toString m = toString n ↔ m = n := by
  refine ⟨fun h => ?_, congrArg toString⟩
  exact (number_unique (s := "") (t := "") (by decide) (by decide) (congrArg (· ++ "") h)).1

end Text

namespace Position

/-- Line and offset are read back from around a text that is neither empty nor begins with a digit. -/
theorem eq_of_line_and_offset {p q : Position} {sep : String} (hsep : Text.EndsNumber sep)
    (hne : sep ≠ "") (h : toString p.line ++ (sep ++ toString p.offset) =
      toString q.line ++ (sep ++ toString q.offset)) : p = q := by
  obtain ⟨hline, hlater⟩ := Text.number_unique (hsep.append hne _) (hsep.append hne _) h
  have hoffset := Text.toString_inj.1 ((String.append_right_inj _).1 hlater)
  cases p; cases q
  exact mk.injEq .. ▸ ⟨hline, hoffset⟩

theorem short_inj {p q : Position} : p.short = q.short ↔ p = q := by
  refine ⟨fun h => ?_, congrArg short⟩
  rw [short, short, String.append_assoc, String.append_assoc] at h
  exact eq_of_line_and_offset (by decide) (by decide) h

theorem text_inj {p q : Position} : p.text = q.text ↔ p = q := by
  refine ⟨fun h => ?_, congrArg text⟩
  rw [text, text, String.append_assoc, String.append_assoc, String.append_assoc, String.append_assoc,
    String.append_right_inj] at h
  exact eq_of_line_and_offset (by decide) (by decide) h

end Position

namespace Fault

def call? : Fault → Option String
  | closed => none
  | outOfRange call _ _ | badArgument call _ | markLost call _ => some call

/-- What a fault tells behind the name of the call. -/
def cause : Fault → String
  | closed => ""
  | outOfRange _ index limit =>
      " index " ++ (toString index ++ (" out of range (limit " ++ (toString limit ++ ")")))
  | badArgument _ reason => " " ++ reason
  | markLost _ depth => " mark was evicted from the mark stack (depth " ++ (toString depth ++ ")")

theorem cause_outOfRange (call : String) (index limit : Nat) :
    (outOfRange call index limit).cause =
      " index " ++ (toString index ++ (" out of range (limit " ++ (toString limit ++ ")"))) := rfl

theorem cause_badArgument (call reason : String) : (badArgument call reason).cause = " " ++ reason := rfl

theorem cause_markLost (call : String) (depth : Nat) :
    (markLost call depth).cause =
      " mark was evicted from the mark stack (depth " ++ (toString depth ++ ")") := rfl

theorem message_of_call? {f : Fault} {call : String} (h : f.call? = some call) :
    f.message = call ++ (":" ++ f.cause) := by
  cases f with
  | closed => cases h
  | outOfRange own index limit =>
    have hcolon : ": index " = ":" ++ " index " := by decide +kernel
    rw [← Option.some.inj h, cause_outOfRange, message, hcolon]
    simp only [String.append_assoc]
  | badArgument own reason =>
    have hcolon : ": " = ":" ++ " " := by decide +kernel
    rw [← Option.some.inj h, cause_badArgument, message, hcolon]
    simp only [String.append_assoc]
  | markLost own depth =>
    have hcolon : ": mark was evicted from the mark stack (depth " =
        ":" ++ " mark was evicted from the mark stack (depth " := by decide +kernel
    rw [← Option.some.inj h, cause_markLost, message, hcolon]
    simp only [String.append_assoc]

/-- The calls that are refused for a count, and those that are refused for a lost mark. -/
def countingCalls : List String := ["read_into", "pushback"]

def waysBack : List String := ["reset", "rewind", "release_mark"]

/-- The faults that readers tell. -/
inductive Told : Fault → Prop where
  | closed : Told .closed
  | outOfRange {call : String} (h : call ∈ countingCalls) (index limit : Nat) :
      Told (.outOfRange call index limit)
  | badArgument : Told (.badArgument "mark" "read-ahead limit < 0")
  | markLost {call : String} (h : call ∈ waysBack) (depth : Nat) : Told (.markLost call depth)

end Fault

theorem Reader.told_of_refuses {r : Reader} {step : Step} {fault : Fault} (h : r.Refuses step fault) :
    fault.Told := by
  cases h with
  | negativeLimit => exact .badArgument
  | closed => exact .closed
  | tooShort => exact .outOfRange (by decide) _ _
  | beforeStart | beforeStartOne => exact .outOfRange (by decide) _ _
  | lostMark ho hs =>
    cases step with
    | reset | rewind | release =>
      cases hs
      exact .markLost (by decide) _
    | _ => cases hs

namespace Fault

theorem Told.noColon {f : Fault} (h : f.Told) {call : String} (hc : f.call? = some call) :
    ∀ c ∈ call.toList, (c != ':') = true := by
  have hcounting : ∀ call ∈ countingCalls, call.toList.all (· != ':') = true := by decide
  have hback : ∀ call ∈ waysBack, call.toList.all (· != ':') = true := by decide
  refine List.all_eq_true.1 ?_
  cases h with
  | closed => cases hc
  | outOfRange h => cases hc; exact hcounting _ h
  | badArgument => cases hc; decide
  | markLost h => cases hc; exact hback _ h

theorem Told.call_and_cause_unique {f g : Fault} (hf : f.Told) (hg : g.Told) {call call' : String}
    (hc : f.call? = some call) (hc' : g.call? = some call') (h : f.message = g.message) :
    call = call' ∧ f.cause = g.cause := by
  rw [message_of_call? hc, message_of_call? hc'] at h
  have hlists := congrArg String.toList h
  simp only [String.toList_append] at hlists
  obtain ⟨hcall, hlater⟩ := Text.append_unique (p := (· != ':')) (hf.noColon hc) (hg.noColon hc')
    (by simp) (by simp) hlists
  exact ⟨String.toList_inj.1 hcall, String.toList_inj.1 (List.append_cancel_left hlater)⟩

theorem cause_outOfRange_inj {a b : String} {index limit index' limit' : Nat}
    (h : (outOfRange a index limit).cause = (outOfRange b index' limit').cause) :
    index = index' ∧ limit = limit' := by
  rw [cause_outOfRange, cause_outOfRange] at h
  have hends (s : String) : Text.EndsNumber (" out of range (limit " ++ s) :=
    .append (by decide) (by decide) s
  have hclose : Text.EndsNumber ")" := by decide
  obtain ⟨hindex, hlater⟩ := Text.number_unique (hends _) (hends _) ((String.append_right_inj _).1 h)
  exact ⟨hindex, (Text.number_unique hclose hclose ((String.append_right_inj _).1 hlater)).1⟩

theorem cause_markLost_inj {a b : String} {depth depth' : Nat}
    (h : (markLost a depth).cause = (markLost b depth').cause) : depth = depth' := by
  rw [cause_markLost, cause_markLost] at h
  have hclose : Text.EndsNumber ")" := by decide
  exact (Text.number_unique hclose hclose ((String.append_right_inj _).1 h)).1

theorem colon_mem_message {f : Fault} {call : String} (hc : f.call? = some call) :
    ':' ∈ f.message.toList := by
  rw [message_of_call? hc, String.toList_append, String.toList_append]
  simp

theorem Told.eq_of_call_and_cause {f g : Fault} (hf : f.Told) (hg : g.Told)
    (hcall : f.call? = g.call?) (hcause : f.cause = g.cause) : f = g := by
  have hmark : "mark" ∉ countingCalls ∧ "mark" ∉ waysBack := by decide
  have hdisjoint : ∀ call ∈ countingCalls, call ∉ waysBack := by decide
  cases hf with
  | closed =>
    cases hg with
    | closed => rfl
    | outOfRange | badArgument | markLost => cases hcall
  | outOfRange hf index limit =>
    cases hg with
    | closed => cases hcall
    | outOfRange =>
      obtain ⟨rfl, rfl⟩ := cause_outOfRange_inj hcause
      rw [Option.some.inj hcall]
    | badArgument => exact absurd (Option.some.inj hcall ▸ hf) hmark.1
    | markLost hg => exact absurd hg (hdisjoint _ (Option.some.inj hcall ▸ hf))
  | badArgument =>
    cases hg with
    | closed => cases hcall
    | outOfRange hg => exact absurd (Option.some.inj hcall ▸ hg) hmark.1
    | badArgument => rfl
    | markLost hg => exact absurd (Option.some.inj hcall ▸ hg) hmark.2
  | markLost hf depth =>
    cases hg with
    | closed => cases hcall
    | outOfRange hg => exact absurd hf (hdisjoint _ (Option.some.inj hcall ▸ hg))
    | badArgument => exact absurd (Option.some.inj hcall ▸ hf) hmark.2
    | markLost =>
      obtain rfl := cause_markLost_inj hcause
      rw [Option.some.inj hcall]

theorem call?_eq_none_iff {f : Fault} : f.call? = none ↔ f = closed := by
  cases f <;> simp [call?]

theorem Told.message_inj {f g : Fault} (hf : f.Told) (hg : g.Told) :
    f.message = g.message ↔ f = g := by
  refine ⟨fun h => ?_, congrArg message⟩
  have hcolon : ':' ∉ Fault.closed.message.toList := by decide
  cases hc : f.call? with
  | none =>
    obtain rfl := call?_eq_none_iff.1 hc
    cases hc' : g.call? with
    | none => exact (call?_eq_none_iff.1 hc').symm
    | some call' => exact absurd (h ▸ colon_mem_message hc') hcolon
  | some call =>
    cases hc' : g.call? with
    | none =>
      obtain rfl := call?_eq_none_iff.1 hc'
      exact absurd (h ▸ colon_mem_message hc) hcolon
    | some call' =>
      obtain ⟨hcall, hcause⟩ := hf.call_and_cause_unique hg hc hc' h
      exact hf.eq_of_call_and_cause hg (by rw [hc, hc', hcall]) hcause

theorem Told.isClosed_iff_message {f : Fault} (hf : f.Told) :
    f.isClosed = true ↔ f.message = "stream closed" := by
  rw [isClosed_iff, ← hf.message_inj .closed]
  rfl

end Fault

theorem Reader.told_of_error {r : Reader} {step : Step} {fault : Fault}
    (h : (r.perform step).answer.outcome = .error fault) : fault.Told :=
  told_of_refuses ((r.error_iff_refuses step fault).1 h)

/-- Positions are told apart by either of their texts, and the faults that readers tell by their
messages. -/
theorem texts_identify_values :
    (∀ p q : Position, (p.short = q.short ↔ p = q) ∧ (p.text = q.text ↔ p = q)) ∧
    ∀ (origin other : Origin) (past otherPast : List Step) (step otherStep : Step) (f g : Fault),
      ((origin.reader past).perform step).answer.outcome = .error f →
      ((other.reader otherPast).perform otherStep).answer.outcome = .error g →
      (f.message = g.message ↔ f = g) ∧ (f.isClosed = true ↔ f.message = "stream closed") := by
  refine ⟨fun p q => ⟨Position.short_inj, Position.text_inj⟩, ?_⟩
  intro origin other past otherPast step otherStep f g hf hg
  have hf := Reader.told_of_error hf
  exact ⟨hf.message_inj (Reader.told_of_error hg), hf.isClosed_iff_message⟩

/-- A way back that is refused on a stack of two, and a count of one that is refused at the start. -/
theorem texts_of_lost_mark_and_count :
    (((Origin.tuned { markDepth := 2 }).reader
        [.mark 0, .mark 0, .mark 0, .rewind, .rewind]).perform .release).answer.outcome =
      .error (.markLost "release_mark" 2) ∧
    (((Origin.text ['a']).reader []).perform .unreadOne).answer.outcome =
      .error (.outOfRange "pushback" 1 0) ∧
    (Fault.markLost "release_mark" 2).message ≠ (Fault.outOfRange "pushback" 1 0).message ∧
    (Fault.markLost "release_mark" 2).message ≠ "stream closed" := by
  have hlost : (((Origin.tuned { markDepth := 2 }).reader
      [.mark 0, .mark 0, .mark 0, .rewind, .rewind]).perform .release).answer.outcome =
        .error (.markLost "release_mark" 2) := rfl
  have hcount : (((Origin.text ['a']).reader []).perform .unreadOne).answer.outcome =
      .error (.outOfRange "pushback" 1 0) := rfl
  obtain ⟨hmessage, hclosed⟩ := texts_identify_values.2 _ _ _ _ _ _ _ _ hlost hcount
  exact ⟨hlost, hcount, fun h => (nomatch hmessage.1 h), fun h => (nomatch hclosed.2 h)⟩

end Retrace
