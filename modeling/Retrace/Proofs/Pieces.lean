import Retrace.Proofs.NormalForm

/-! Lists of directives in pieces. Rewriting a list that is put together from others with commas in
between puts the rewritten ones together, so every piece is rewritten on its own: what is blank in it or
around it never shows, and the entries come in the order of the pieces. -/
namespace Retrace
namespace Directive

variable {accepts : List Char → Bool}

/-- Two lists with a comma in between, where there is something on both sides of it. -/
def plus (x y : String) : String :=
  if y = "" then x else if x = "" then y else x ++ "," ++ y

@[simp] theorem plus_empty (x : String) : plus x "" = x := if_pos rfl

@[simp] theorem empty_plus (x : String) : plus "" x = x := by
  by_cases h : x = ""
  · rw [h, plus_empty]
  · rw [plus, if_neg h, if_pos rfl]

theorem plus_of_ne {x y : String} (hx : x ≠ "") (hy : y ≠ "") : plus x y = x ++ "," ++ y := by
  rw [plus, if_neg hy, if_neg hx]

theorem plus_assoc (x y z : String) : plus (plus x y) z = plus x (plus y z) := by
  by_cases hx : x = ""
  · rw [hx, empty_plus, empty_plus]
  by_cases hz : z = ""
  · rw [hz, plus_empty, plus_empty]
  by_cases hy : y = ""
  · rw [hy, plus_empty, empty_plus]
  have hleft : x ++ "," ++ y ≠ "" := fun h => hy (String.append_eq_empty_iff.1 h).2
  have hright : y ++ "," ++ z ≠ "" := fun h => hz (String.append_eq_empty_iff.1 h).2
  rw [plus_of_ne hx hy, plus_of_ne hy hz, plus_of_ne hleft hz, plus_of_ne hx hright]
  simp only [String.append_assoc]

theorem join_append {ps qs : List (List Char)} (hp : ps ≠ []) (hq : qs ≠ []) :
    join (ps ++ qs) = join ps ++ ',' :: join qs := by
  induction ps with
  | nil => exact absurd rfl hp
  | cons p ps ih =>
    cases ps with
    | nil =>
      obtain ⟨q, qs, rfl⟩ := List.exists_cons_of_ne_nil hq
      simp [join]
    | cons p' ps =>
      have hlater := ih (List.cons_ne_nil p' ps)
      simp only [join, List.cons_append, List.intercalate_cons_cons] at hlater ⊢
      rw [hlater]
      simp

theorem scopedEntries_append (accepts : List Char → Bool) (a b : List Char) :
    scopedEntries accepts (a ++ ',' :: b) = scopedEntries accepts a ++ scopedEntries accepts b := by
  rw [scopedEntries, entries_append, List.map_append]
  rfl

theorem toList_append_comma (a b : String) : (a ++ "," ++ b).toList = a.toList ++ ',' :: b.toList := by
  simp

theorem normalize_append (accepts : List Char → Bool) (a b : String) :
    normalize accepts (a ++ "," ++ b) = plus (normalize accepts a) (normalize accepts b) := by
  have hentries : scopedEntries accepts (a ++ "," ++ b).toList =
      scopedEntries accepts a.toList ++ scopedEntries accepts b.toList := by
    rw [toList_append_comma, scopedEntries_append]
  by_cases hb : scopedEntries accepts b.toList = []
  · rw [normalize_eq_empty_iff.2 hb, plus_empty]
    exact normalize_eq_of_scopedEntries_eq (by rw [hentries, hb, List.append_nil])
  by_cases ha : scopedEntries accepts a.toList = []
  · rw [normalize_eq_empty_iff.2 ha, empty_plus]
    exact normalize_eq_of_scopedEntries_eq (by rw [hentries, ha, List.nil_append])
  rw [plus_of_ne (mt normalize_eq_empty_iff.1 ha) (mt normalize_eq_empty_iff.1 hb)]
  apply String.toList_inj.1
  rw [toList_append_comma, toList_normalize, toList_normalize, toList_normalize, hentries,
    join_append ha hb]

/-! Pieces. -/

theorem scopedEntries_pieces (accepts : List Char → Bool) (pieces : List String) :
    scopedEntries accepts (",".intercalate pieces).toList =
      pieces.flatMap fun p => scopedEntries accepts p.toList := by
  induction pieces with
  | nil => rfl
  | cons p pieces ih =>
    cases pieces with
    | nil => simp
    | cons q pieces =>
      rw [String.intercalate_cons_cons, toList_append_comma, scopedEntries_append, ih]
      simp only [List.flatMap_cons]

theorem comma_notMem_of_blank {pad : List Char} (h : ∀ c ∈ pad, Text.isBlank c = true) :
    ',' ∉ pad := by
  intro hc
  exact absurd (h _ hc) (by decide)

theorem entries_append_blank {right : List Char} (h : ∀ c ∈ right, Text.isBlank c = true)
    (raw : List Char) : entries (raw ++ right) = entries raw := by
  have hc := comma_notMem_of_blank h
  -- The blanks stand behind the last comma, so that only the last directive has to be trimmed of them.
  induction raw using comma_induction with
  | single p hp =>
    have htrim : Text.trim ([] ++ p ++ right) = Text.trim p :=
      Text.trim_pad (fun _ hc => absurd hc List.not_mem_nil) h p
    rw [List.nil_append] at htrim
    rw [entries_of_noComma (by simp [hp, hc]), entries_of_noComma hp, htrim]
  | cons p rest hp ih =>
    rw [List.append_assoc, List.cons_append, entries_append, entries_append, ih]

theorem entries_blank_append {left : List Char} (h : ∀ c ∈ left, Text.isBlank c = true)
    (raw : List Char) : entries (left ++ raw) = entries raw := by
  have hc := comma_notMem_of_blank h
  have htrim (p : List Char) : Text.trim (left ++ p) = Text.trim p := by
    have hpad : Text.trim (left ++ p ++ []) = Text.trim p :=
      Text.trim_pad h (fun _ hc => absurd hc List.not_mem_nil) p
    rwa [List.append_nil] at hpad
  induction raw using comma_induction with
  | single p hp => rw [entries_of_noComma (by simp [hp, hc]), entries_of_noComma hp, htrim]
  | cons p rest hp =>
    rw [← List.append_assoc, entries_append, entries_append,
      entries_of_noComma (p := left ++ p) (by simp [hp, hc]), entries_of_noComma hp, htrim]

theorem entries_of_blank {cs : List Char} (h : ∀ c ∈ cs, Text.isBlank c = true) : entries cs = [] := by
  have hpad := entries_append_blank h []
  rwa [List.nil_append] at hpad

def IsBlank (s : String) : Prop := ∀ c ∈ s.toList, Text.isBlank c = true

instance (s : String) : Decidable (IsBlank s) :=
  List.decidableBAll (fun c => Text.isBlank c = true) s.toList

/-- The same pieces, each with blanks on either side of it, and blank pieces in between. -/
inductive Padded : List String → List String → Prop
  | nil : Padded [] []
  | piece {pieces padded : List String} (left p right : String) (hl : IsBlank left)
      (hr : IsBlank right) (rest : Padded pieces padded) :
      Padded (p :: pieces) ((left ++ p ++ right) :: padded)
  | blank {pieces padded : List String} (p : String) (hp : IsBlank p) (rest : Padded pieces padded) :
      Padded pieces (p :: padded)

theorem entries_pad {left p right : String} (hl : IsBlank left) (hr : IsBlank right) :
    entries (left ++ p ++ right).toList = entries p.toList := by
  rw [String.toList_append, String.toList_append, entries_append_blank hr, entries_blank_append hl]

theorem Padded.flatMap_scopedEntries {pieces padded : List String} (h : Padded pieces padded) :
    (padded.flatMap fun p => scopedEntries accepts p.toList) =
      pieces.flatMap fun p => scopedEntries accepts p.toList := by
  induction h with
  | nil => rfl
  | piece left p right hl hr _ ih =>
    rw [List.flatMap_cons, List.flatMap_cons, ih, scopedEntries, entries_pad hl hr]
    rfl
  | blank p hp _ ih =>
    rw [List.flatMap_cons, ih, scopedEntries, entries_of_blank hp]
    rfl

theorem normalize_padded {pieces padded : List String} (h : Padded pieces padded) :
    normalize accepts (",".intercalate padded) = normalize accepts (",".intercalate pieces) := by
  apply normalize_eq_of_scopedEntries_eq
  rw [scopedEntries_pieces, scopedEntries_pieces, h.flatMap_scopedEntries]

theorem written_pieces (accepts : List Char → Bool) (pieces : List String) :
    written (normalize accepts (",".intercalate pieces)) =
      pieces.flatMap fun p => written (normalize accepts p) := by
  simp only [written_normalize, scopedEntries_pieces]

theorem length_written_le_one {p : String} (h : ',' ∉ p.toList) :
    (written (normalize accepts p)).length ≤ 1 := by
  rw [written_normalize, scopedEntries, entries_of_noComma h]
  split <;> simp

/-- Whatever is taken for a level, rewriting goes piece by piece. -/
theorem normalize_is_homomorphism (accepts : List Char → Bool) :
    (∀ a b, normalize accepts (a ++ "," ++ b) = plus (normalize accepts a) (normalize accepts b)) ∧
    (∀ x y z, plus (plus x y) z = plus x (plus y z)) ∧
    (∀ x, plus x "" = x ∧ plus "" x = x) ∧
    (∀ pieces padded, Padded pieces padded →
      normalize accepts (",".intercalate padded) = normalize accepts (",".intercalate pieces)) ∧
    (∀ pieces, written (normalize accepts (",".intercalate pieces)) =
      pieces.flatMap fun p => written (normalize accepts p)) ∧
    (∀ p : String, ',' ∉ p.toList → (written (normalize accepts p)).length ≤ 1) ∧
    ∀ (n : Nat) (pieces : Fin n → String) (order : List (Fin n)), order.Perm (List.finRange n) →
      written (normalize accepts (",".intercalate (order.map pieces))) =
          order.flatMap (fun i => written (normalize accepts (pieces i))) ∧
        (written (normalize accepts (",".intercalate (order.map pieces)))).Perm
          (written (normalize accepts (",".intercalate ((List.finRange n).map pieces)))) := by
  refine ⟨normalize_append accepts, plus_assoc, fun x => ⟨plus_empty x, empty_plus x⟩,
    fun _ _ => normalize_padded, written_pieces accepts, fun _ => length_written_le_one,
    fun n pieces order h => ⟨?_, ?_⟩⟩
  · rw [written_pieces, List.flatMap_map]
  · rw [written_pieces, written_pieces]
    exact (h.map pieces).flatMap_right _

/-- Three pieces, the second of them a list of two, between blanks; and two pieces turned around. -/
theorem padded_and_turned_around :
    Padded ["debug", "a=1,2", "x"] ["\u3000debug\t", "", " a=1,2\u00a0", " \u2028", "x"] ∧
    normalize isBareLevel (",".intercalate ["\u3000debug\t", "", " a=1,2\u00a0", " \u2028", "x"]) =
      "sno_stream=debug,a=1,sno_stream=2,x" ∧
    [1, 0].Perm (List.finRange 2) ∧
    written (normalize isBareLevel
        (",".intercalate ([1, 0].map fun i : Fin 2 => if i = 0 then "off" else "a=1,2"))) =
      ["a=1".toList, "sno_stream=2".toList, "sno_stream=off".toList] := by
  obtain ⟨-, -, -, hpadded, -, -, hordered⟩ := normalize_is_homomorphism isBareLevel
  have hp : Padded ["debug", "a=1,2", "x"] ["\u3000debug\t", "", " a=1,2\u00a0", " \u2028", "x"] :=
    .piece "\u3000" "debug" "\t" (by decide) (by decide) <| .blank "" (by decide) <|
      .piece " " "a=1,2" "\u00a0" (by decide) (by decide) <| .blank " \u2028" (by decide) <|
        .piece "" "x" "" (by decide) (by decide) .nil
  have horder : [1, 0].Perm (List.finRange 2) := .swap 0 1 []
  refine ⟨hp, (hpadded _ _ hp).trans (by decide), horder, ?_⟩
  rw [(hordered 2 (fun i => if i = 0 then "off" else "a=1,2") [1, 0] horder).1]
  decide

end Directive
end Retrace
