import Infed.TargetList

/-! `self_optimize.c`: the constraints on a single table move into FROM.  `my_modifier_self` takes
them out of the WHERE and `add_constrain` merges those of the same table; `rewrite_self` then
replaces the table with a sub-select that has them as its WHERE. -/

namespace Infed.Self

variable {α : Type}

/-- A FROM entry as `varno` and `varlevelsup`, with `none` for -1. -/
abbrev Table := Option (Nat × Nat)

def tableOf (v : Var) : Table := some (v.varno, v.varlevelsup)

/-! ### Merging constraints -/

structure TempContext (α : Type) where
  tableToAdd : Table
  constraintToAdd : Node α
  toAdd : Bool
  alreadyAdd : Bool

def makeTempContext (constraintToAdd : Node α) (tableToAdd : Table) : TempContext α where
  tableToAdd
  constraintToAdd
  toAdd := false
  alreadyAdd := false

/-- One call of `temp_modifier_add`. -/
def tempModifierAdd : Mutator α (TempContext α)
  | .null, _, context => some (.null, context)
  | .var v, _, context =>
    some (.var v,
      if context.tableToAdd = tableOf v then { context with toAdd := true } else context)
  | .boolExpr _ _, traverse, context => do
    let (tmp, context) ← traverse context
    match tmp, context.toAdd with
    -- the arguments are returned as a bare list
    | .boolExpr .andExpr args, true =>
      some (.list (args ++ [context.constraintToAdd]),
        { context with toAdd := false, alreadyAdd := true })
    | tmp, _ => some (tmp, context)
  | .query targetList rtable fromlist quals, _, context =>
    some (.query targetList rtable fromlist quals, context)
  | _, traverse, context => traverse context

/-- The loop of `add_constrain`. -/
def addConstrainLoop : List (Node α) → TempContext α → Option (List (Node α) × TempContext α)
  | [], context => some ([], context)
  | t :: list, context =>
    if context.alreadyAdd then do
      let (result, context) ← addConstrainLoop list context
      some (t :: result, context)
    else do
      let (new, context) ← mutate tempModifierAdd t context
      if context.toAdd && !context.alreadyAdd then do
        let (result, context') ←
          addConstrainLoop list { context with toAdd := false, alreadyAdd := true }
        some (.boolExpr .andExpr [new, context.constraintToAdd] :: result, context')
      else do
        let (result, context) ← addConstrainLoop list context
        some (new :: result, context)

def addConstrain (alreadyConstrainRel : List (Node α)) (context : TempContext α) :
    Option (List (Node α)) :=
  match alreadyConstrainRel with
  | [] => some [context.constraintToAdd]
  | list => do
    let (result, context) ← addConstrainLoop list context
    some (if context.alreadyAdd then result else result ++ [context.constraintToAdd])

/-! ### Taking constraints out of the WHERE -/

structure ContextOptimizerSelf (α : Type) where
  disjunction : Bool
  equality : Bool
  add : Bool
  alreadyConstrainRel : List (Node α)
  tableToAdd : Table
  tableToAddOr : Table
  tableToAddEq : Table

def makeContextOptimizerSelf : ContextOptimizerSelf α where
  disjunction := false
  equality := false
  add := false
  alreadyConstrainRel := []
  tableToAdd := none
  tableToAddOr := none
  tableToAddEq := none

/-- The table is set, and not to the one of the column. -/
def Table.differs (table : Table) (v : Var) : Bool := table.isSome && table != tableOf v

/-- The `Var` case of `my_modifier_self`. -/
def ContextOptimizerSelf.enterVar (v : Var) (context : ContextOptimizerSelf α) :
    ContextOptimizerSelf α :=
  if context.disjunction && Table.differs context.tableToAddOr v then { context with add := false }
  else if context.equality && Table.differs context.tableToAddEq v then
    { context with add := false }
  else { context with
    tableToAdd := tableOf v
    tableToAddOr := if context.disjunction then tableOf v else context.tableToAddOr
    tableToAddEq := if context.equality then tableOf v else context.tableToAddEq
    add := true }

/-- The node becomes a constraint, and NULL stands in its place. -/
def ContextOptimizerSelf.constrain (node : Node α) (context : ContextOptimizerSelf α) :
    Option (Node α × ContextOptimizerSelf α) := do
  let alreadyConstrainRel ←
    addConstrain context.alreadyConstrainRel (makeTempContext node context.tableToAdd)
  some (.null, { context with add := false, alreadyConstrainRel })

/-- One call of `my_modifier_self`. -/
def myModifierSelf : Mutator α (ContextOptimizerSelf α)
  | .null, _, context => some (.null, context)
  | .query targetList rtable fromlist quals, _, context =>
    some (.query targetList rtable fromlist quals, context)
  | .var v, _, context => some (.var v, context.enterVar v)
  | .boolExpr .orExpr args, traverse, context => do
    let (retour, context) ← traverse { context with disjunction := true, tableToAddOr := none }
    let context := { context with disjunction := false, tableToAdd := none }
    if context.add then context.constrain (.boolExpr .orExpr args) else some (retour, context)
  | .nullTest test arg, traverse, context => do
    let (retour, context) ← traverse context
    if context.add && !context.disjunction then context.constrain (.nullTest test arg)
    else some (retour, context)
  | .opExpr opno args, traverse, context => do
    let (retour, context) ← traverse { context with equality := true }
    let context := { context with equality := false, tableToAddEq := none }
    if context.add && !context.disjunction then context.constrain (.opExpr opno args)
    else some (retour, context)
  | _, traverse, context => traverse context

/-! ### Rewriting FROM -/

/-- One call of `init_rel`. -/
def initRel : Walker α Table
  | .null, _, context => (false, context)
  | .var v, _, _ => (true, tableOf v)
  | _, rest, context => rest context

/-- One call of `modif_rel`. -/
def modifRel : Mutator α Unit
  | .null, _, context => some (.null, context)
  | .var v, _, context => some (.var { v with varno := 1 }, context)
  | .query targetList rtable fromlist quals, _, context =>
    some (.query targetList rtable fromlist quals, context)
  | _, traverse, context => traverse context

/-- `varno_to_add` of the table that `init_rel` finds, -1 if there is no column. -/
def Table.varnoToAdd : Table → Int
  | some (varno, _) => varno
  | none => -1

/-- The `Var` case of `modif_targetEntry`. -/
def columnOfOnly (varnoToAdd : Int) (v : Var) : Option Var :=
  if v.varno ≠ varnoToAdd then none else some { v with varno := 1 }

/-- `modif_targetEntry` for the table `varnoToAdd`, with the flag `to_add`. -/
def modifTargetEntry (varnoToAdd : Int) : Node α → Bool → Option (Node α × Bool) :=
  mutateTarget (columnOfOnly varnoToAdd)

def createFromQuery (rte constraint : Node α) (listTargetEntry : List (Node α)) : Node α :=
  .query listTargetEntry [rte] [1] constraint

/-- The range table entry with a sub-select in its place. -/
def toSubquery (nq : Node α) : Node α → Node α
  | .rangeTblEntry _ relid _ => .rangeTblEntry .rteSubquery relid nq
  | node => node

/-- `rewrite_self`, on the range table of the query with the given target list. -/
def rewriteSelf (targetList : List (Node α)) : List (Node α) → List (Node α) →
    Option (List (Node α))
  | [], rtable => some rtable
  | t :: constraintToAdd, rtable => do
    let varnoToAdd := Table.varnoToAdd (walk initRel t none).2
    let (nConstraint, _) ← mutate modifRel t ()
    let (l, _) ← modifTargetEntry varnoToAdd (.list targetList) false
    -- the head of the range table for a constraint without a column
    let rte ← listNth rtable (varnoToAdd - 1)
    rewriteSelf targetList constraintToAdd
      (rtable.set (varnoToAdd - 1).toNat (toSubquery (createFromQuery rte nConstraint l.elems) rte))

def optimizeSelfConstraint : Node α → Option (Node α)
  | .query targetList rtable fromlist quals => do
    let (quals, ctxSelf) ← mutate myModifierSelf quals makeContextOptimizerSelf
    let rtable ← rewriteSelf targetList ctxSelf.alreadyConstrainRel rtable
    some (.query targetList rtable fromlist quals)
  | _ => none

end Infed.Self
