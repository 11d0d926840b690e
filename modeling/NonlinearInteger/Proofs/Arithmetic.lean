import NonlinearInteger.Search.Consistency
import NonlinearInteger.Search.Steps

/-!
# Computing with another arithmetic

Evaluation, scores and lifts saturate, and a rounded quotient is one operation.
Here the same computations are written over an arithmetic that is left open.
With saturating sums and products they are the computations of the search. With
the strict arithmetic nothing saturates, and every single result has to lie in
the 128-bit range.
-/

namespace NonlinearInteger

namespace Wide

/-- The quotient rounded towards zero, with what remains. -/
def divide (x y : Int) : Checked (Int × Int) := do
  let quotient ← exact (Int.tdiv x y)
  let remainder ← exact (Int.tmod x y)
  if y = 0 then throw .overflow else return (quotient, remainder)

/-- A quotient rounded down, one less than that rounded towards zero if the signs
differ and something remains. -/
def divFloorStepwise (x y : Int) : Checked Int := do
  let (quotient, remainder) ← divide x y
  if remainder ≠ 0 ∧ (decide (x < 0) != decide (y < 0)) = true then sub quotient 1
  else return quotient

/-- A quotient rounded up, one more than that rounded towards zero if the signs
agree and something remains. -/
def divCeilStepwise (x y : Int) : Checked Int := do
  let (quotient, remainder) ← divide x y
  if remainder ≠ 0 ∧ (decide (x < 0) == decide (y < 0)) = true then add quotient 1
  else return quotient

end Wide

structure Arithmetic where
  add : Int → Int → Checked Int
  mul : Int → Int → Checked Int
  divFloor : Int → Int → Checked Int
  divCeil : Int → Int → Checked Int

namespace Arithmetic

def saturating : Arithmetic where
  add x y := .ok (Wide.addSaturating x y)
  mul x y := .ok (Wide.mulSaturating x y)
  divFloor := Wide.divFloor
  divCeil := Wide.divCeil

/-- Every result has to fit, also those on the way to a quotient. -/
def strict : Arithmetic where
  add := Wide.add
  mul := Wide.mul
  divFloor := Wide.divFloorStepwise
  divCeil := Wide.divCeilStepwise

end Arithmetic

variable (A : Arithmetic)

namespace Monomial

def multiplyBy (coef : Int) (factors : List Int) : Checked Int := factors.foldlM A.mul coef

def evaluateBy (m : Monomial) (values : Array Int) : Checked Int :=
  if m.isEmpty then .ok 0
  else do multiplyBy A m.coef (← m.vars.mapM (fetch values))

/-- The product is computed even if the monomial lacks the variable. -/
def slopeBy (m : Monomial) (v : Variable) (values : Array Int) : Checked Int :=
  if m.isEmpty then .ok 0
  else do
    let product ← multiplyBy A m.coef (← (m.vars.erase v).mapM (fetch values))
    return if m.contains v then product else 0

theorem multiplyBy_saturating (coef : Int) (factors : List Int) :
    multiplyBy .saturating coef factors = .ok (multiply coef factors) := by
  induction factors generalizing coef with
  | nil => rfl
  | cons x xs ih => exact ih (Wide.mulSaturating coef x)

theorem evaluateBy_saturating (m : Monomial) (values : Array Int) :
    m.evaluateBy .saturating values = m.evaluate values := by
  unfold evaluateBy evaluate
  split
  · rfl
  · cases m.vars.mapM (fetch values) with
    | error cause => rfl
    | ok factors => exact multiplyBy_saturating m.coef factors

theorem slopeBy_saturating (m : Monomial) (v : Variable) (values : Array Int) :
    m.slopeBy .saturating v values = m.slope v values := by
  unfold slopeBy slope
  simp only [multiplyBy_saturating]
  rfl

end Monomial

namespace Polynomial

def accumulateBy (value : Monomial → Checked Int) (ms : List Monomial) : Checked Int :=
  ms.foldlM (fun total m => do A.add total (← value m)) 0

def evaluateBy (p : Polynomial) (values : Array Int) : Checked Int :=
  accumulateBy A (·.evaluateBy A values) p.monomials

def evaluateWithoutBy (p : Polynomial) (v : Variable) (values : Array Int) : Checked Int :=
  accumulateBy A (·.evaluateBy A values) (p.monomials.filter fun m => !m.contains v)

def slopeBy (p : Polynomial) (v : Variable) (values : Array Int) : Checked Int :=
  accumulateBy A (·.slopeBy A v values) p.monomials

theorem accumulateBy_saturating (value : Monomial → Checked Int) (ms : List Monomial) :
    accumulateBy .saturating value ms = accumulate value ms := by
  have hstep : (fun (total : Int) (m : Monomial) => do
      Arithmetic.saturating.add total (← value m)) =
      fun total m => Wide.addSaturating total <$> value m := by
    funext total m
    cases value m <;> rfl
  simp only [accumulateBy, accumulate, hstep]

theorem evaluateBy_saturating (p : Polynomial) (values : Array Int) :
    p.evaluateBy .saturating values = p.evaluate values := by
  simp only [evaluateBy, evaluate, accumulateBy_saturating, Monomial.evaluateBy_saturating]

theorem evaluateWithoutBy_saturating (p : Polynomial) (v : Variable) (values : Array Int) :
    p.evaluateWithoutBy .saturating v values = p.evaluateWithout v values := by
  simp only [evaluateWithoutBy, evaluateWithout, accumulateBy_saturating,
    Monomial.evaluateBy_saturating]

theorem slopeBy_saturating (p : Polynomial) (v : Variable) (values : Array Int) :
    p.slopeBy .saturating v values = p.slope v values := by
  simp only [slopeBy, slope, accumulateBy_saturating, Monomial.slopeBy_saturating]

end Polynomial

namespace Search

variable {ρ : Type}

def shiftSlopeBy (combine : Int → Int → Checked Int) (row : Row) (m : Monomial)
    (values : Array Int) (slopes : Array Int) (slot : Nat) : Checked (Array Int) := do
  let v ← fetch row.vars slot
  let old ← fetch slopes slot
  store slopes slot (← combine old (← m.slopeBy A v values))

def shiftTermBy (combine : Int → Int → Checked Int) (row : Row) (values : Array Int)
    (cache : Cache) (term : Nat) : Checked Cache := do
  let m ← fetch row.monomials term
  let value ← combine cache.value (← m.evaluateBy A values)
  let slots ← fetch row.monoSlots term
  let slopes ← slots.foldlM (shiftSlopeBy A combine row m values) cache.slopes
  return { cache with value := value, slopes := slopes }

def shiftTermsBy (combine : Int → Int → Checked Int) (row : Row) (values : Array Int)
    (slot : Nat) (cache : Cache) : Checked Cache := do
  (← fetch row.slotMonos slot).foldlM (shiftTermBy A combine row values) cache

def takeOutBy (P : Problem) (values : Array Int) (delta : Int) (caches : Array Cache)
    (occurrence : Nat × Nat) : Checked (Array Cache) := do
  let (c, slot) := occurrence
  let row ← fetch P.rows c
  let cache ← fetch caches c
  if row.linear then
    let slope ← fetch cache.slopes slot
    let value ← Wide.add cache.value (← Wide.mul slope delta)
    store caches c { cache with value := value }
  else store caches c (← shiftTermsBy A Wide.sub row values slot cache)

def putBackBy (P : Problem) (values : Array Int) (caches : Array Cache)
    (occurrence : Nat × Nat) : Checked (Array Cache) := do
  let (c, slot) := occurrence
  let row ← fetch P.rows c
  if row.linear then return caches
  else store caches c (← shiftTermsBy A Wide.add row values slot (← fetch caches c))

theorem shiftTermsBy_saturating (combine : Int → Int → Checked Int) (row : Row)
    (values : Array Int) (slot : Nat) (cache : Cache) :
    shiftTermsBy .saturating combine row values slot cache =
      shiftTerms combine row values slot cache := by
  have hslope (m : Monomial) : shiftSlopeBy .saturating combine row m values =
      shiftSlope combine row m values := by
    funext slopes slot
    simp only [shiftSlopeBy, shiftSlope, Monomial.slopeBy_saturating]
  have hterm : shiftTermBy .saturating combine row values = shiftTerm combine row values := by
    funext cache term
    simp only [shiftTermBy, shiftTerm, Monomial.evaluateBy_saturating, hslope]
  simp only [shiftTermsBy, shiftTerms, hterm]

theorem takeOutBy_saturating (P : Problem) (values : Array Int) (delta : Int) :
    takeOutBy .saturating P values delta = takeOut P values delta := by
  funext caches occurrence
  simp only [takeOutBy, takeOut, shiftTermsBy_saturating]

theorem putBackBy_saturating (P : Problem) (values : Array Int) :
    putBackBy .saturating P values = putBack P values := by
  funext caches occurrence
  simp only [putBackBy, putBack, shiftTermsBy_saturating]

section Random

variable [RandomSource ρ]

def moveToBy (P : Problem) (s : State ρ) (v : Variable) (old new : Int) :
    Checked (State ρ) := do
  let delta ← Wide.sub new old
  let occurrences ← fetch P.occurrences v
  let out ← occurrences.foldlM (takeOutBy A P s.assignment.values delta) s.caches
  let assignment ← s.assignment.setValue v new
  let caches ← occurrences.foldlM (putBackBy A P assignment.values) out
  let violated ← occurrences.foldlM (refile P caches) s.violated
  let coef ← fetch P.objectiveCoefs v
  let objective ← Wide.add s.objective (← Wide.mul coef delta)
  startClock P { s with assignment, caches, violated, objective } v

def applyBy (P : Problem) (s : State ρ) (v : Variable) (x : Int) :
    Except StepError (State ρ) := do
  let old ← s.assignment.value v
  if old = x then return s
  else if ← s.assignment.admits v x then moveToBy A P s v old x
  else throw (.outside (P.formula.name v) x (← s.assignment.lb v) (← s.assignment.ub v))

theorem applyBy_saturating (P : Problem) (s : State ρ) (v : Variable) (x : Int) :
    applyBy .saturating P s v x = apply P s v x := by
  simp only [applyBy, apply, moveToBy, moveTo, takeOutBy_saturating, putBackBy_saturating]

end Random

def rawFeasibleBy (P : Problem) (s : State ρ) (v : Variable) (c slot : Nat) (d : Direction) :
    Checked (Option Int) := do
  let row ← fetch P.rows c
  let cache ← fetch s.caches c
  let slope ← fetch cache.slopes slot
  if boundedDirection? row.sense slope = some d then
    let free ← Wide.sub cache.value (← Wide.mul slope (← s.assignment.value v))
    let room ← Wide.sub row.limit free
    match d with
    | .up => return some (← A.divFloor room slope)
    | .down => return some (← A.divCeil room slope)
  else return none

def feasibleBy (P : Problem) (s : State ρ) (v : Variable) (d : Direction) :
    Checked (Option Int) := do
  let bound ← match d with
    | .up => s.assignment.ub v
    | .down => s.assignment.lb v
  let last ← (← fetch P.occurrences v).foldlM
    (fun last (c, slot) => do
      match ← rawFeasibleBy A P s v c slot d with
      | some x => return nearer d last x
      | none => return last)
    bound
  clamp s.assignment v last d

def rowScoreBy (row : Row) (cache : Cache) (slope delta : Int) : Checked Int := do
  let before := row.isSatisfied cache
  let after := row.sense.holds (← A.add cache.value (← A.mul slope delta)) row.limit
  return if before && !after then -cache.weight
    else if !before && after then cache.weight
    else 0

def hardScoreBy (P : Problem) (s : State ρ) (v : Variable) (x : Int) : Checked Int := do
  let delta ← Wide.sub x (← s.assignment.value v)
  (← fetch P.occurrences v).foldlM
    (fun score (c, slot) => do
      let row ← fetch P.rows c
      let cache ← fetch s.caches c
      return score + (← rowScoreBy A row cache (← fetch cache.slopes slot) delta))
    0

def softScoreBy (P : Problem) (s : State ρ) (v : Variable) (x : Int) : Checked Int := do
  let coef ← fetch P.objectiveCoefs v
  let delta ← Wide.sub x (← s.assignment.value v)
  let change ← A.mul coef delta
  return if change < 0 then s.objectiveWeight
    else if 0 < change then -s.objectiveWeight
    else 0

theorem rawFeasibleBy_saturating (P : Problem) (s : State ρ) (v : Variable) (c slot : Nat)
    (d : Direction) : rawFeasibleBy .saturating P s v c slot d = rawFeasible P s v c slot d :=
  rfl

theorem hardScoreBy_saturating (P : Problem) (s : State ρ) (v : Variable) (x : Int) :
    hardScoreBy .saturating P s v x = hardScore P s v x :=
  rfl

theorem softScoreBy_saturating (P : Problem) (s : State ρ) (v : Variable) (x : Int) :
    softScoreBy .saturating P s v x = softScore P s v x :=
  rfl

def liftGainBy? (P : Problem) (s : State ρ) (term : Variable × Int) :
    Checked (Option Scored) := do
  let (v, coef) := term
  if ← s.isTabu P v then return none
  else
    match ← feasibleBy A P s v .up with
    | none => return none
    | some x =>
      let rise ← Wide.sub x (← s.assignment.value v)
      return some ⟨(v, x), ← A.mul (-coef) rise⟩

def bestLiftBy (P : Problem) (s : State ρ) : Checked (Option Scored) :=
  P.liftTerms.foldlM
    (fun best term => do
      match ← liftGainBy? A P s term with
      | some next => return some (better best next)
      | none => return best)
    none

def liftMoveBy [RandomSource ρ] (P : Problem) (s : State ρ) :
    Except StepError (Bool × State ρ) := do
  match ← bestLiftBy A P s with
  | some b =>
    if 0 < b.score then return (true, ← applyBy A P s b.move.1 b.move.2) else return (false, s)
  | none => return (false, s)

theorem liftMoveBy_saturating [RandomSource ρ] (P : Problem) (s : State ρ) :
    liftMoveBy .saturating P s = liftMove P s := by
  have hbest : bestLiftBy .saturating P s = bestLift P s := rfl
  unfold liftMoveBy liftMove
  rw [hbest]
  refine bind_congr fun best => ?_
  cases best with
  | none => rfl
  | some b => simp only [applyBy_saturating]

def checkSlotBy (P : Problem) (a : Assignment) (c : Nat) (p : Polynomial) (cache : Cache)
    (entry : Variable × Nat) : Except StepError Unit := do
  let (v, slot) := entry
  let slope ← p.slopeBy A v a.values
  let free ← p.evaluateWithoutBy A v a.values
  let cached ← fetch cache.slopes slot
  if cached ≠ slope then inconsistent (.slope c cached (P.formula.name v) slope)
  else
    let value ← Wide.add (← Wide.mul slope (← a.value v)) free
    unless value = cache.value do inconsistent (.slope c cached (P.formula.name v) slope)

def checkConstraintBy (P : Problem) (s : State ρ) (entry : Constraint × Nat) :
    Except StepError Unit := do
  let (constraint, c) := entry
  let row ← fetch P.rows c
  let cache ← fetch s.caches c
  let expected ← constraint.poly.evaluateBy A s.assignment.values
  unless cache.value = expected do
    inconsistent (.constraintValue c cache.value expected)
  row.vars.toList.zipIdx.forM (checkSlotBy A P s.assignment c constraint.poly cache)
  if row.isSatisfied cache = (← s.violated.contains c) then inconsistent (.misfiled c)

def checkObjectiveBy (P : Problem) (s : State ρ) : Except StepError Unit := do
  let expected ← P.formula.objective.evaluateBy A s.assignment.values
  unless expected = s.objective do inconsistent (.objective s.objective expected)

def checkConsistencyBy (P : Problem) (s : State ρ) : Except StepError Unit := do
  (List.range s.assignment.size).forM (checkValue P s.assignment)
  P.formula.constraints.toList.zipIdx.forM (checkConstraintBy A P s)
  s.violated.members.toList.zipIdx.forM (checkPosition s)
  checkObjectiveBy A P s

theorem checkConsistencyBy_saturating (P : Problem) (s : State ρ) :
    checkConsistencyBy .saturating P s = checkConsistency P s := by
  have hslot (a : Assignment) (c : Nat) (p : Polynomial) (cache : Cache) :
      checkSlotBy .saturating P a c p cache = checkSlot P a c p cache := by
    funext entry
    simp only [checkSlotBy, checkSlot, Polynomial.slopeBy_saturating,
      Polynomial.evaluateWithoutBy_saturating]
  have hconstraint : checkConstraintBy .saturating P s = checkConstraint P s := by
    funext entry
    simp only [checkConstraintBy, checkConstraint, Polynomial.evaluateBy_saturating, hslot]
  have hobjective : checkObjectiveBy .saturating P s = checkObjective P s := by
    simp only [checkObjectiveBy, checkObjective, Polynomial.evaluateBy_saturating,
      Formula.objectiveValue]
  simp only [checkConsistencyBy, checkConsistency, hconstraint, hobjective]

end Search
end NonlinearInteger
