import NonlinearInteger.Lp.Error

/-!
# Writing the LP format

Every term is written with its sign and its coefficient, a product in brackets.
Only domains other than the standard one are written, and all variables are
listed at the end.
-/

namespace NonlinearInteger.Lp

def termText (name : Variable → String) (m : Monomial) : String :=
  let sign := if m.coef < 0 then " - " else " + "
  let coef := toString m.coef.natAbs
  let factors := m.vars.map name
  if m.isLinear then sign ++ coef ++ " " ++ " * ".intercalate factors
  else sign ++ "[ " ++ coef ++ " " ++ " * ".intercalate factors ++ " ]"

/-- A polynomial without terms is written as zero. -/
def termsText (name : Variable → String) (p : Polynomial) : String :=
  if p.isEmpty then " 0" else String.join (p.monomials.map (termText name))

def constraintText (name : Variable → String) (c : Constraint) (index : Nat) :
    Except WriteError String :=
  if c.relation = .undefined then .error (.undefinedRelation index)
  else .ok (" c" ++ toString index ++ ":" ++ termsText name c.poly ++ " " ++
    c.relation.text ++ " " ++ toString c.limit ++ "\n")

def boundText (name : Variable → String) (d : Domain) (v : Variable) : String :=
  if d = .standard then ""
  else " " ++ toString d.lb ++ " <= " ++ name v ++ " <= " ++ toString d.ub ++ "\n"

def write (f : Formula) : Except WriteError String := do
  let constraints ← f.constraints.toList.zipIdx.mapM fun (c, i) => constraintText f.name c i
  let bounds := f.domains.toList.zipIdx.map fun (d, v) => boundText f.name d v
  let generals := (List.range f.numVariables).map fun v => " " ++ f.name v
  return "Minimize\n obj:" ++ termsText f.name f.objective ++ "\nSubject To\n" ++
    String.join constraints ++ "Bounds\n" ++ String.join bounds ++ "Generals\n" ++
    String.join generals ++ "\nEnd\n"

end NonlinearInteger.Lp
