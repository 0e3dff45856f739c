import Infed.CertainAnswer

/-! `certain_answer_marked.c`: the certain-answer pass for marked nulls, which are the negative
integers. -/

namespace Infed.Marked

/-- `v < 0` (OID 97): the column is a marked null. -/
def lessZero (v : Var) : Node Int := .opExpr 97 [.var v, .const (some 0)]

/-- `v > 0` (OID 521). -/
def greaterZero (v : Var) : Node Int := .opExpr 521 [.var v, .const (some 0)]

/-- Only `<>` (OID 518) rejects marked nulls.  It is strengthened at positive polarity, and `=` (OID
96) and LIKE (OID 1209) are weakened at negative polarity; `>=` and `<=` are taken apart. -/
def pass : Pass Int where
  collects opno := opno == 518
  entersSubquery := false
  checks positive opno :=
    (positive && opno == 518) || (!positive && opno == 96) || (!positive && opno == 1209)
  check positive known v :=
    (if !positive && !known then [lessZero v] else []) ++ (if positive then [greaterZero v] else [])
  connective positive := some (if positive then .andExpr else .orExpr)
  strictPart opno := if opno == 525 then some 521 else if opno == 523 then some 97 else none

def myWalker (cat : Catalog) : Node Int → ContextWalkerSetConstraint →
    Option ContextWalkerSetConstraint := pass.myWalker cat

def myMutator : Node Int → ContextModifier Int → Option (Node Int × ContextModifier Int) :=
  pass.myMutator

end Infed.Marked
