import Infed.CertainAnswer

/-! `certain_answer_codd.c`: the certain-answer pass for SQL NULLs. -/

namespace Infed.Codd

variable {α : Type}

/-- The operators whose comparisons `my_mutator` weakens at negative polarity: `<>`, `=` (twice),
`>`, `>=`, `<=`, `<`, and LIKE. -/
def weakened : List Oid := [518, 416, 98, 521, 525, 523, 97, 1209]

def isNull (v : Var) : Node α := .nullTest .isNull (.var v)

/-- Every comparison rejects NULLs for the walker.  At negative polarity a comparison with a listed
operator is joined by OR to IS NULL tests of its columns. -/
def pass : Pass α where
  collects _ := true
  entersSubquery := true
  checks positive opno := !positive && weakened.contains opno
  check _ known v := if known then [] else [isNull v]
  connective positive := if positive then none else some .orExpr
  strictPart _ := none

def myWalker (cat : Catalog) : Node α → ContextWalkerSetConstraint →
    Option ContextWalkerSetConstraint := pass.myWalker cat

def myMutator : Node α → ContextModifier α → Option (Node α × ContextModifier α) := pass.myMutator

end Infed.Codd
