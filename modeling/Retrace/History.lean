import Retrace.Step

/-! Histories of one reader: how it came to be, and the calls made on it, one after the other.
A refused call does not end a history; it does end a block. -/
namespace Retrace

/-- How a reader comes to be. -/
inductive Origin where
  | blank
  | text (cs : List Char)
  | tuned (settings : Settings)
  deriving DecidableEq, Repr

def Origin.build : Origin → Turn Reader Unit
  | .blank => ⟨(), .blank .standard, []⟩
  | .text cs => ⟨(), { Reader.blank .standard with text := some cs }, [.loaded cs.length]⟩
  | .tuned settings => ⟨(), .blank settings, []⟩

namespace Reader

def turns (r : Reader) : List Step → List (Turn Reader Reply)
  | [] => []
  | step :: steps =>
    let turn := r.perform step
    turn :: turn.after.turns steps

def afterAll (r : Reader) : List Step → Reader
  | [] => r
  | step :: steps => (r.perform step).after.afterAll steps

def replies (r : Reader) (steps : List Step) : List Reply := (r.turns steps).map (·.answer)

def logAll (r : Reader) (steps : List Step) : List Event := (r.turns steps).flatMap (·.log)

/-- Make the calls up to the first that is refused. What was done stays done. -/
def block (r : Reader) : List Step → Turn Reader (List Reply)
  | [] => ⟨[], r, []⟩
  | step :: steps =>
    let turn := r.perform step
    if turn.answer.isRefusal then turn.map fun reply => [reply]
    else
      let later := turn.after.block steps
      ⟨turn.answer :: later.answer, later.after, turn.log ++ later.log⟩

@[simp] theorem turns_nil (r : Reader) : r.turns [] = [] := rfl

@[simp] theorem turns_cons (r : Reader) (step : Step) (steps : List Step) :
    r.turns (step :: steps) = r.perform step :: (r.perform step).after.turns steps := rfl

@[simp] theorem afterAll_nil (r : Reader) : r.afterAll [] = r := rfl

@[simp] theorem afterAll_cons (r : Reader) (step : Step) (steps : List Step) :
    r.afterAll (step :: steps) = (r.perform step).after.afterAll steps := rfl

theorem afterAll_append (r : Reader) (xs ys : List Step) :
    r.afterAll (xs ++ ys) = (r.afterAll xs).afterAll ys := by
  induction xs generalizing r with
  | nil => rfl
  | cons step xs ih => exact ih _

theorem turns_append (r : Reader) (xs ys : List Step) :
    r.turns (xs ++ ys) = r.turns xs ++ (r.afterAll xs).turns ys := by
  induction xs generalizing r with
  | nil => rfl
  | cons step xs ih => simp [ih]

@[simp] theorem length_turns (r : Reader) (steps : List Step) :
    (r.turns steps).length = steps.length := by
  induction steps generalizing r with
  | nil => rfl
  | cons step steps ih => simp [ih]

theorem replies_append (r : Reader) (xs ys : List Step) :
    r.replies (xs ++ ys) = r.replies xs ++ (r.afterAll xs).replies ys := by
  simp [replies, turns_append]

@[simp] theorem replies_cons (r : Reader) (step : Step) (steps : List Step) :
    r.replies (step :: steps) = (r.perform step).answer :: (r.perform step).after.replies steps :=
  rfl

@[simp] theorem logAll_cons (r : Reader) (step : Step) (steps : List Step) :
    r.logAll (step :: steps) = (r.perform step).log ++ (r.perform step).after.logAll steps := by
  simp [logAll]

theorem logAll_append (r : Reader) (xs ys : List Step) :
    r.logAll (xs ++ ys) = r.logAll xs ++ (r.afterAll xs).logAll ys := by
  simp [logAll, turns_append]

end Reader
end Retrace
