import Retrace.Directive

/-! The normal form of a list of directives. A rewritten list is read back entry by entry as it was
written, and none of its entries is rewritten again: there is nothing to trim or to drop any more, and
behind the target nothing is a mere level. -/
namespace Retrace
namespace Directive

variable {accepts : List Char → Bool}

/-- A directive that is read out of a list as it stands there. -/
structure Entry (p : List Char) : Prop where
  nonempty : p ≠ []
  noComma : ',' ∉ p
  starts : ∀ c ∈ p.head?, Text.isBlank c = false
  ends : ∀ c ∈ p.getLast?, Text.isBlank c = false

instance (p : List Char) : Decidable (Entry p) :=
  decidable_of_iff (p ≠ [] ∧ ',' ∉ p ∧ p.head?.all (!Text.isBlank ·) = true ∧
      p.getLast?.all (!Text.isBlank ·) = true) <| by
    simp only [Option.all_eq_true, Bool.not_eq_true']
    exact ⟨fun ⟨hne, hcomma, hstarts, hends⟩ => ⟨hne, hcomma, hstarts, hends⟩,
      fun h => ⟨h.nonempty, h.noComma, h.starts, h.ends⟩⟩

/-- One that is not rewritten either. -/
structure Settled (accepts : List Char → Bool) (p : List Char) : Prop extends Entry p where
  notBare : accepts p = false

/-- Every list is what stands before its first comma, or that and another list behind the comma. -/
@[elab_as_elim]
theorem comma_induction {motive : List Char → Prop} (raw : List Char)
    (single : ∀ p, ',' ∉ p → motive p)
    (cons : ∀ p rest, ',' ∉ p → motive rest → motive (p ++ ',' :: rest)) : motive raw := by
  by_cases h : ',' ∈ raw
  · obtain ⟨p, rest, rfl, hp⟩ := List.eq_append_cons_of_mem h
    exact cons p rest hp (comma_induction rest single cons)
  · exact single raw h
termination_by raw.length
decreasing_by simp_all; omega

theorem noComma_of_mem_splitOn {raw p : List Char} (h : p ∈ raw.splitOn ',') : ',' ∉ p := by
  induction raw using comma_induction with
  | single raw hraw =>
    rw [List.splitOn_eq_singleton hraw, List.mem_singleton] at h
    exact h ▸ hraw
  | cons q rest hq ih =>
    rw [List.splitOn_append_cons_self_of_not_mem hq] at h
    rcases List.mem_cons.1 h with rfl | h
    · exact hq
    · exact ih h

/-! What is read out of a list. -/

theorem entries_of_noComma {p : List Char} (h : ',' ∉ p) :
    entries p = if (Text.trim p).isEmpty then [] else [Text.trim p] := by
  rw [entries, List.splitOn_eq_singleton h]
  cases hp : Text.trim p <;> simp [hp]

theorem entries_append (a b : List Char) : entries (a ++ ',' :: b) = entries a ++ entries b := by
  simp only [entries, List.splitOn_append_cons_self, List.map_append, List.filter_append]

theorem entry_of_mem_entries {raw p : List Char} (h : p ∈ entries raw) : Entry p := by
  obtain ⟨hmem, hne⟩ := List.mem_filter.1 h
  obtain ⟨piece, hpiece, rfl⟩ := List.mem_map.1 hmem
  exact {
    nonempty := by simpa using hne
    noComma := fun hc => noComma_of_mem_splitOn hpiece (Text.mem_of_mem_trim hc)
    starts := Text.isBlank_of_head?_trim
    ends := Text.isBlank_of_getLast?_trim }

theorem Entry.trim_eq {p : List Char} (h : Entry p) : Text.trim p = p := by
  rw [Text.trim, Text.trimStart_eq_self_iff.2 h.starts, Text.trimEnd_eq_self_iff.2 h.ends]

theorem entries_join {ps : List (List Char)} (h : ∀ p ∈ ps, Entry p) : entries (join ps) = ps := by
  cases ps with
  | nil => rfl
  | cons p ps =>
    have hsplit := List.splitOn_intercalate ',' (fun q hq => (h q hq).noComma) (List.cons_ne_nil p ps)
    have htrim : (p :: ps).map Text.trim = p :: ps :=
      (List.map_congr_left fun q hq => (h q hq).trim_eq).trans (List.map_id _)
    rw [entries, join, hsplit, htrim, List.filter_eq_self]
    intro q hq
    simpa using (h q hq).nonempty

/-! What is written. -/

theorem target_eq : target = ['s', 'n', 'o', '_', 's', 't', 'r', 'e', 'a', 'm'] := by decide

theorem Entry.scope {p : List Char} (h : Entry p) (accepts : List Char → Bool) :
    Entry (scope accepts p) := by
  cases hb : accepts p with
  | false =>
    rw [scope_of_not_accepts hb]
    exact h
  | true =>
    rw [scope_of_accepts hb]
    obtain ⟨c, cs, rfl⟩ := List.exists_cons_of_ne_nil h.nonempty
    exact {
      nonempty := by simp
      noComma := by
        have hc := h.noComma
        rw [target_eq]
        simpa using hc
      starts := by
        rw [target_eq]
        simp [Text.isBlank, Text.blankRanges]
      ends := by
        rw [List.getLast?_append, List.getLast?_cons_cons, List.getLast?_cons, Option.some_or,
          ← List.getLast?_cons]
        exact h.ends }

theorem entry_of_mem_scopedEntries {raw p : List Char} (h : p ∈ scopedEntries accepts raw) :
    Entry p := by
  obtain ⟨q, hq, rfl⟩ := List.mem_map.1 h
  exact (entry_of_mem_entries hq).scope accepts

theorem entries_normalize (accepts : List Char → Bool) (raw : String) :
    entries (normalize accepts raw).toList = scopedEntries accepts raw.toList := by
  rw [toList_normalize]
  exact entries_join fun _ => entry_of_mem_scopedEntries

theorem normalize_eq_of_scopedEntries_eq {raw other : String}
    (h : scopedEntries accepts raw.toList = scopedEntries accepts other.toList) :
    normalize accepts raw = normalize accepts other := by
  rw [normalize, normalize, h]

theorem normalize_eq_iff {raw other : String} :
    normalize accepts raw = normalize accepts other ↔
      scopedEntries accepts raw.toList = scopedEntries accepts other.toList := by
  refine ⟨fun h => ?_, normalize_eq_of_scopedEntries_eq⟩
  rw [← entries_normalize accepts raw, h, entries_normalize]

theorem normalize_eq_empty_iff {raw : String} :
    normalize accepts raw = "" ↔ scopedEntries accepts raw.toList = [] := by
  have hempty : normalize accepts "" = "" := rfl
  rw [← hempty, normalize_eq_iff]
  rfl

/-- The entries of a rewritten list, from comma to comma. -/
def written (result : String) : List (List Char) :=
  if result = "" then [] else result.toList.splitOn ','

theorem splitOn_normalize {raw : String} (h : scopedEntries accepts raw.toList ≠ []) :
    (normalize accepts raw).toList.splitOn ',' = scopedEntries accepts raw.toList := by
  rw [toList_normalize]
  exact List.splitOn_intercalate ',' (fun _ hp => (entry_of_mem_scopedEntries hp).noComma) h

theorem written_normalize (accepts : List Char → Bool) (raw : String) :
    written (normalize accepts raw) = scopedEntries accepts raw.toList := by
  unfold written
  by_cases h : scopedEntries accepts raw.toList = []
  · rw [if_pos (normalize_eq_empty_iff.2 h), h]
  · rw [if_neg fun he => h (normalize_eq_empty_iff.1 he), splitOn_normalize h]

/-! What is put in front of a level keeps it from being taken for one again. -/

theorem equals_notMem_levelNames : ∀ name ∈ levelNames, '=' ∉ name := by decide

theorem isBareLevel_target (p : List Char) : isBareLevel (target ++ '=' :: p) = false := by
  have hnumber : isLevelNumber (target ++ '=' :: p) = false := by
    rw [target_eq]
    rfl
  have hname : isLevelName (target ++ '=' :: p) = false := by
    rw [isLevelName, Bool.eq_false_iff]
    intro h
    refine equals_notMem_levelNames _ (List.contains_iff_mem.1 h) ?_
    rw [List.map_append]
    exact List.mem_append_right _ List.mem_cons_self
  rw [isBareLevel, hnumber, hname]
  rfl

theorem ParsesLevels.settled_scope (h : ParsesLevels accepts) {p : List Char} (hp : Entry p) :
    Settled accepts (scope accepts p) := by
  refine ⟨hp.scope accepts, ?_⟩
  cases hb : accepts p with
  | false => rw [scope_of_not_accepts hb, hb]
  | true => rw [scope_of_accepts hb, h.eq_isBareLevel (by simp), isBareLevel_target]

theorem Settled.scope_eq {p : List Char} (h : Settled accepts p) : Directive.scope accepts p = p :=
  scope_of_not_accepts h.notBare

theorem ParsesLevels.settled (h : ParsesLevels accepts) {raw p : List Char}
    (hp : p ∈ scopedEntries accepts raw) : Settled accepts p := by
  obtain ⟨q, hq, rfl⟩ := List.mem_map.1 hp
  exact h.settled_scope (entry_of_mem_entries hq)

theorem ParsesLevels.scopedEntries_normalize (h : ParsesLevels accepts) (raw : String) :
    scopedEntries accepts (normalize accepts raw).toList = scopedEntries accepts raw.toList := by
  rw [scopedEntries, entries_normalize]
  exact (List.map_congr_left fun p hp => (h.settled hp).scope_eq).trans (List.map_id _)

/-- A rewritten list is read back as it was written, entry by entry; none of its entries is rewritten
again, and it tells two lists apart iff their scoped directives differ. -/
theorem rewritten_list_is_normal_form {accepts : List Char → Bool} (h : ParsesLevels accepts)
    (raw other : String) :
    (normalize accepts raw = "" ↔ scopedEntries accepts raw.toList = []) ∧
    (scopedEntries accepts raw.toList ≠ [] →
      (normalize accepts raw).toList.splitOn ',' = scopedEntries accepts raw.toList) ∧
    (∀ p ∈ written (normalize accepts raw), Settled accepts p) ∧
    normalize accepts (normalize accepts raw) = normalize accepts raw ∧
    (normalize accepts raw = normalize accepts other ↔
      scopedEntries accepts raw.toList = scopedEntries accepts other.toList) := by
  refine ⟨normalize_eq_empty_iff, splitOn_normalize, fun p hp => ?_, ?_, normalize_eq_iff⟩
  · rw [written_normalize] at hp
    exact h.settled hp
  · exact normalize_eq_of_scopedEntries_eq (h.scopedEntries_normalize raw)

/-- A number with a sign and a name in capitals, between blanks of different kinds and an empty
directive, before one that names its target. -/
theorem levels_between_blanks :
    ParsesLevels isBareLevel ∧
    scopedEntries isBareLevel " +05\t,,\u3000Warn ,a=info".toList ≠ [] ∧
    (normalize isBareLevel " +05\t,,\u3000Warn ,a=info").toList.splitOn ',' =
      ["sno_stream=+05".toList, "sno_stream=Warn".toList, "a=info".toList] ∧
    normalize isBareLevel (normalize isBareLevel " +05\t,,\u3000Warn ,a=info") =
      normalize isBareLevel " +05\t,,\u3000Warn ,a=info" := by
  have hlist : scopedEntries isBareLevel " +05\t,,\u3000Warn ,a=info".toList =
      ["sno_stream=+05".toList, "sno_stream=Warn".toList, "a=info".toList] := by decide
  have hne : scopedEntries isBareLevel " +05\t,,\u3000Warn ,a=info".toList ≠ [] := by
    rw [hlist]
    exact List.cons_ne_nil _ _
  have hall := rewritten_list_is_normal_form parsesLevels_isBareLevel " +05\t,,\u3000Warn ,a=info" ""
  exact ⟨parsesLevels_isBareLevel, hne, (hall.2.1 hne).trans hlist, hall.2.2.2.1⟩

end Directive
end Retrace
