import Retrace.Text

/-! Lists of log directives, separated by commas. A directive that is a mere level gets this
library's target in front of it; all others stay as they are written. Blanks around a
directive and empty directives are dropped. What counts as a level is for the parser of the
list to say, and so a parameter. -/
namespace Retrace
namespace Directive

def target : List Char := "sno_stream".toList

def levelNames : List (List Char) :=
  ["off", "error", "warn", "info", "debug", "trace"].map String.toList

/-- One of the names of levels; only ASCII letters may change their case. -/
def isLevelName (p : List Char) : Bool := levelNames.contains (p.map Char.toLower)

def isLevelNumber (p : List Char) : Bool := (Count.read? p).any fun n => decide (n ≤ 5)

/-- A directive that names a level and nothing that the level is for. -/
def isBareLevel (p : List Char) : Bool := isLevelNumber p || isLevelName p

def entries (raw : List Char) : List (List Char) :=
  ((raw.splitOn ',').map Text.trim).filter fun p => !p.isEmpty

def join (ps : List (List Char)) : List Char := [','].intercalate ps

section

-- the test for levels is that of the parser which reads the list in the end
variable (accepts : List Char → Bool)

/-- What is accepted as a level keeps its own spelling behind the target. -/
def scope (p : List Char) : List Char := if accepts p then target ++ '=' :: p else p

def scopedEntries (raw : List Char) : List (List Char) := (entries raw).map (scope accepts)

/-- The list with every bare level scoped. -/
def normalize (raw : String) : String := String.ofList (join (scopedEntries accepts raw.toList))

end

variable {accepts : List Char → Bool}

theorem scope_of_accepts {p : List Char} (h : accepts p = true) :
    scope accepts p = target ++ '=' :: p := by
  simp [scope, h]

theorem scope_of_not_accepts {p : List Char} (h : accepts p = false) : scope accepts p = p := by
  simp [scope, h]

theorem toList_normalize (raw : String) :
    (normalize accepts raw).toList = join (scopedEntries accepts raw.toList) := by
  simp [normalize]

/-- What is known of the test: on directives, it goes by the value of a count and by the names of the
levels. -/
structure ParsesLevels (accepts : List Char → Bool) : Prop where
  accepts_iff : ∀ p ≠ [], accepts p = true ↔
    (∃ n, Count.read? p = some n ∧ n ≤ 5) ∨ p.map Char.toLower ∈ levelNames

theorem parsesLevels_isBareLevel : ParsesLevels isBareLevel where
  accepts_iff p _ := by
    simp only [isBareLevel, isLevelNumber, isLevelName, Bool.or_eq_true, Option.any_eq_true,
      decide_eq_true_eq, List.contains_iff_mem]

theorem ParsesLevels.eq_isBareLevel (h : ParsesLevels accepts) {p : List Char} (hp : p ≠ []) :
    accepts p = isBareLevel p :=
  Bool.eq_iff_iff.2 ((h.accepts_iff p hp).trans (parsesLevels_isBareLevel.accepts_iff p hp).symm)

end Directive
end Retrace
