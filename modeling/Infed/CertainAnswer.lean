import Infed.TrueVar

/-! What `certain_answer_codd.c` and `certain_answer_marked.c` share: a walker that records, for
each AND/OR node, the columns that cannot be NULL where the node is true and where it is false, and
a mutator that weakens or strengthens comparisons with null checks.  A `Pass` says where the two
files differ. -/

namespace Infed

open CellList

variable {α : Type}

structure Pass (α : Type) where
  /-- The walker collects the columns of a comparison with this operator. -/
  collects : Oid → Bool
  /-- The walker enters the range table of a sub-select in FROM. -/
  entersSubquery : Bool
  /-- At this polarity, the mutator checks the columns of a comparison with this operator. -/
  checks : Bool → Oid → Bool
  /-- The checks for a column, from the polarity and whether the column is known not to be NULL. -/
  check : Bool → Bool → Var → List (Node α)
  /-- What joins the checks to the comparison; with `none` the mutator falls through. -/
  connective : Bool → Option BoolExprType
  /-- The strict operator that makes up a non-strict one together with `=` (OID 96). -/
  strictPart : Oid → Option Oid

/-! ### The walker -/

/-- The true variables of a range table entry: one for each attribute. -/
def relationVars (cat : Catalog) (rte : Nat) (relid : Oid) : List TrueVar :=
  (List.range (cat.relnatts relid)).map fun i => ⟨rte, relid, i + 1⟩

namespace ContextWalkerSetConstraint

/-- The `RangeTblEntry` case. -/
def addRelation (cat : Catalog) (relid : Oid) (context : ContextWalkerSetConstraint) :
    ContextWalkerSetConstraint :=
  let relation := relationVars cat context.rtes relid
  { context with
    listOfNotNullAttSchem := context.listOfNotNullAttSchem ++
      relation.filter fun v => cat.attnotnull relid v.varattno
    currentTrueVar := context.currentTrueVar.lappend relation
    rtes := context.rtes + 1 }

/-- The `Var` case. -/
def addVar (v : Var) (context : ContextWalkerSetConstraint) : Option
    ContextWalkerSetConstraint := do
  let v ← getTrueVar context.currentTrueVar v
  let isIn ← context.heap.any (fun t => t.varattno == v.varattno && t.vartype == v.vartype)
    context.listOfNotNullInOp
  if isIn then some context
  else do
    let (heap, listOfNotNullInOp) ← context.heap.lappend context.listOfNotNullInOp v
    some { context with heap, listOfNotNullInOp }

/-- The end of the AND case, or of the OR case for `isAnd = false`: make the two sets from what the
arguments collected, record them, and add them to the lists saved before the node. -/
def closeBoolExpr (isAnd : Bool) (nbArg : Nat) (lTrueSave lFalseSave : ListPtr)
    (context : ContextWalkerSetConstraint) : Option ContextWalkerSetConstraint := do
  let toBeTrue ← context.heap.foreach context.listOfNotNullToBeTrue
  let (heap, lTrue) ← context.heap.lappendAll none
    (if isAnd then unionList toBeTrue else interList toBeTrue nbArg)
  let toBeFalse ← heap.foreach context.listOfNotNullToBeFalse
  let (heap, lFalse) ← heap.lappendAll none
    (if isAnd then interList toBeFalse nbArg else unionList toBeFalse)
  let (heap, listOfNotNullToBeTrue) ← heap.listConcat lTrueSave lTrue
  let (heap, listOfNotNullToBeFalse) ← heap.listConcat lFalseSave lFalse
  some { context with
    listListTrue := context.listListTrue ++ [lTrue]
    listListFalse := context.listListFalse ++ [lFalse]
    listOfNotNullToBeTrue, listOfNotNullToBeFalse, heap }

/-- The end of the NOT case. -/
def closeNot (lTrueSave lFalseSave : ListPtr) (context : ContextWalkerSetConstraint) :
    Option ContextWalkerSetConstraint := do
  let (heap, listOfNotNullToBeTrue) ←
    context.heap.listConcat lTrueSave context.listOfNotNullToBeFalse
  let (heap, listOfNotNullToBeFalse) ← heap.listConcat lFalseSave context.listOfNotNullToBeTrue
  some { context with listOfNotNullToBeTrue, listOfNotNullToBeFalse, heap }

/-- The end of the `OpExpr` case. -/
def closeOpExpr (context : ContextWalkerSetConstraint) : Option ContextWalkerSetConstraint := do
  let (heap, listOfNotNullToBeTrue) ←
    context.heap.listConcat context.listOfNotNullToBeTrue context.listOfNotNullInOp
  some { context with listOfNotNullToBeTrue, heap }

/-- The start of each `BoolExpr` case. -/
def openBoolExpr (context : ContextWalkerSetConstraint) : ContextWalkerSetConstraint :=
  { context with listOfNotNullToBeTrue := none, listOfNotNullToBeFalse := none }

end ContextWalkerSetConstraint

/-- The start of the `OpExpr` case. -/
def Pass.openOpExpr (P : Pass α) (opno : Oid) (context : ContextWalkerSetConstraint) :
    ContextWalkerSetConstraint :=
  if P.collects opno then { context with ready := true, listOfNotNullInOp := none } else context

mutual

/-- `my_walker`, which never asks for the walk to end.  A `BoolExpr` without arguments is a null
dereference. -/
def Pass.myWalker (P : Pass α) (cat : Catalog) : Node α → ContextWalkerSetConstraint →
    Option ContextWalkerSetConstraint
  | .boolExpr boolop args, context =>
    if args.isEmpty then none
    else do
      let lTrueSave := context.listOfNotNullToBeTrue
      let lFalseSave := context.listOfNotNullToBeFalse
      let context ← P.myWalkerList cat args context.openBoolExpr
      match boolop with
      | .notExpr => context.closeNot lTrueSave lFalseSave
      | .andExpr => context.closeBoolExpr true args.length lTrueSave lFalseSave
      | .orExpr => context.closeBoolExpr false args.length lTrueSave lFalseSave
  | .var v, context => if context.ready then context.addVar v else some context
  | .opExpr opno args, context => do
    let context ← P.myWalkerList cat args (P.openOpExpr opno context)
    if P.collects opno then context.closeOpExpr else some context
  | .query _ rtable _ quals, context => do
    let save := context.currentTrueVar
    let context ← P.myWalkerList cat rtable { context with currentTrueVar := .level save [] }
    let context ← P.myWalker cat quals
      { context with trueVars := context.trueVars ++ [context.currentTrueVar] }
    some { context with currentTrueVar := save }
  | .rangeTblEntry .rteSubquery relid (.query _ rtable _ _), context =>
    if P.entersSubquery then P.myWalkerList cat rtable context
    else some (context.addRelation cat relid)
  | .rangeTblEntry _ relid _, context => some (context.addRelation cat relid)
  | .nullTest _ arg, context => P.myWalker cat arg context
  | .subLink _ testexpr subselect, context => do
    let context ← P.myWalker cat testexpr context
    P.myWalker cat subselect context
  | .targetEntry expr _, context => P.myWalker cat expr context
  | .list elems, context => P.myWalkerList cat elems context
  | _, context => some context

/-- `expression_tree_walker` with `my_walker` on a list. -/
def Pass.myWalkerList (P : Pass α) (cat : Catalog) : List (Node α) → ContextWalkerSetConstraint →
    Option ContextWalkerSetConstraint
  | [], context => some context
  | node :: nodes, context => do
    let context ← P.myWalker cat node context
    P.myWalkerList cat nodes context

end

/-- The start of the `Query` case: the range table gives the scope of the query. -/
def Pass.openQuery (P : Pass α) (cat : Catalog) (rtable : List (Node α))
    (context : ContextWalkerSetConstraint) : Option ContextWalkerSetConstraint := do
  let context ← P.myWalkerList cat rtable
    { context with currentTrueVar := .level context.currentTrueVar [] }
  some { context with trueVars := context.trueVars ++ [context.currentTrueVar] }

/-! ### The mutator -/

namespace ContextModifier

/-- The start of the NOT case. -/
def enterNot (context : ContextModifier α) : ContextModifier α :=
  { context with positive := !context.positive }

/-- The start of the AND/OR case: the columns that the walker recorded for the node are known. -/
def enterBoolExpr (context : ContextModifier α) : Option (ContextModifier α) := do
  let known ← listNth (if context.positive then context.listListTrue else context.listListFalse)
    ((context.listListTrue.length : Int) - context.whereIAm - 1)
  some { context with
    listOfNotNullInCurrent := context.listOfNotNullInCurrent ++ known
    whereIAm := context.whereIAm + 1 }

/-- The start of the `Query` case. -/
def enterQuery (context : ContextModifier α) : Option (ContextModifier α) := do
  let currentTrueVar ← listNth context.trueVars context.whereIAmQuerry
  some { context with currentTrueVar, whereIAmQuerry := context.whereIAmQuerry + 1 }

end ContextModifier

/-- The start of the `OpExpr` case. -/
def Pass.enterOpExpr (P : Pass α) (opno : Oid) (context : ContextModifier α) : ContextModifier α :=
  if P.checks context.positive opno then { context with ready := true } else context

/-- The `Var` case: the checks for the column are added to those of the comparison. -/
def Pass.enterVar (P : Pass α) (v : Var) (context : ContextModifier α) :
    Option (ContextModifier α) :=
  if context.ready then do
    let rv ← getTrueVar context.currentTrueVar v
    let known := isInListTrueVar context.listOfNotNullInCurrent rv
    some { context with
      constraintToAdd := context.constraintToAdd ++ P.check context.positive known v }
  else some context

/-- The `OpExpr` case, for an operator that is not taken apart. -/
def Pass.compare (P : Pass α) (opno : Oid)
    (traverse : ContextModifier α → Option (Node α × ContextModifier α))
    (context : ContextModifier α) : Option (Node α × ContextModifier α) := do
  let (result, context) ← traverse (P.enterOpExpr opno context)
  match context.constraintToAdd with
  | [] => some (result, context)
  | checks =>
    match P.connective context.positive with
    | some boolop =>
      some (.boolExpr boolop (checks ++ [result]),
        { context with constraintToAdd := [], ready := false })
    -- no return statement: the comparison is traversed a second time
    | none => traverse context

/-- The traversal of a comparison, for the same arguments under another operator. -/
def withOpno (opno : Oid) (traverse : ContextModifier α → Option (Node α × ContextModifier α))
    (context : ContextModifier α) : Option (Node α × ContextModifier α) := do
  match ← traverse context with
  | (.opExpr _ args, context) => some (.opExpr opno args, context)
  | other => some other

/-- One call of `my_mutator`. -/
def Pass.myMutatorStep (P : Pass α) : Mutator α (ContextModifier α)
  | .null, _, context => some (.null, context)
  | .boolExpr .notExpr _, traverse, context => do
    let (retour, context) ← traverse context.enterNot
    some (retour, { context with positive := !context.positive })
  | .boolExpr _ _, traverse, context => do
    let lSave := context.listOfNotNullInCurrent
    let (retour, context) ← traverse (← context.enterBoolExpr)
    some (retour, { context with listOfNotNullInCurrent := lSave })
  | .query _ _ _ _, traverse, context => do
    let save := context.currentTrueVar
    let (node, context) ← traverse (← context.enterQuery)
    some (node, { context with currentTrueVar := save })
  | .opExpr opno _, traverse, context =>
    match P.strictPart opno with
    | none => P.compare opno traverse context
    | some strict => do
      let (equa, context) ← P.compare 96 (withOpno 96 traverse) context
      let (stric, context) ← P.compare strict (withOpno strict traverse) context
      some (.boolExpr .orExpr [equa, stric], context)
  | .var v, traverse, context => do traverse (← P.enterVar v context)
  | _, traverse, context => traverse context

def Pass.myMutator (P : Pass α) : Node α → ContextModifier α →
    Option (Node α × ContextModifier α) :=
  mutate P.myMutatorStep

def Pass.myMutatorList (P : Pass α) :
    List (Node α) → ContextModifier α → Option (List (Node α) × ContextModifier α) :=
  mutateList P.myMutatorStep

/-! ### Places in a traversal

A path names a node below another by the positions of the children on the way.  `walkerAt` and
`mutatorAt` give the context in which a traversal enters the node at a path. -/

/-- What is below a node, in the order of both traversals; of a query, its `jointree`. -/
def Node.children : Node α → List (Node α)
  | .opExpr _ args => args
  | .boolExpr _ args => args
  | .nullTest _ arg => [arg]
  | .subLink _ testexpr subselect => [testexpr, subselect]
  | .query _ _ _ quals => [quals]
  | .targetEntry expr _ => [expr]
  | .list elems => elems
  | _ => []

/-- The context in which `my_walker` walks the children of a node. -/
def Pass.enterWalker (P : Pass α) (cat : Catalog) : Node α → ContextWalkerSetConstraint →
    Option ContextWalkerSetConstraint
  | .boolExpr _ _, context => some context.openBoolExpr
  | .opExpr opno _, context => some (P.openOpExpr opno context)
  | .query _ rtable _ _, context => P.openQuery cat rtable context
  | _, context => some context

def Pass.walkerAt (P : Pass α) (cat : Catalog) : List Nat → Node α → ContextWalkerSetConstraint →
    Option (Node α × ContextWalkerSetConstraint)
  | [], node, context => some (node, context)
  | i :: path, node, context => do
    let context ← P.enterWalker cat node context
    let context ← P.myWalkerList cat (node.children.take i) context
    let child ← node.children[i]?
    P.walkerAt cat path child context

/-- The context in which `my_mutator` traverses the children of a node, the first time where there
are two. -/
def Pass.enterMutator (P : Pass α) : Node α → ContextModifier α → Option (ContextModifier α)
  | .boolExpr .notExpr _, context => some context.enterNot
  | .boolExpr _ _, context => context.enterBoolExpr
  | .query _ _ _ _, context => context.enterQuery
  | .opExpr opno _, context => some (P.enterOpExpr opno context)
  | _, context => some context

def Pass.mutatorAt (P : Pass α) : List Nat → Node α → ContextModifier α →
    Option (Node α × ContextModifier α)
  | [], node, context => some (node, context)
  | i :: path, node, context => do
    let context ← P.enterMutator node context
    let (_, context) ← P.myMutatorList (node.children.take i) context
    let child ← node.children[i]?
    P.mutatorAt path child context

end Infed
