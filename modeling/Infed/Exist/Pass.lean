import Infed.Self.Pass

/-! `exist_optimize.c`: the FROM entries of a sub-select that its WHERE connects neither with each
other nor with an enclosing query become EXISTS conditions.  `create_connexe` computes the connected
components of the entries, and `rewrite_connexe` takes one component out of the query. -/

namespace Infed.Exist

variable {α : Type}

/-! ### Connected components -/

structure ContextExists where
  composanteConnexeSubLevel : List Nat
  listComposantesConnexes : List (List Nat)
  varnoEnCours : Option Nat
  varSub : Bool
  deriving DecidableEq

def makeContextExists (nbVarno : Nat) : ContextExists where
  composanteConnexeSubLevel := []
  listComposantesConnexes := (List.range' 1 nbVarno).map ([·])
  varnoEnCours := none
  varSub := false

namespace ContextExists

def isSub (varno : Nat) (ctx : ContextExists) : Bool := ctx.composanteConnexeSubLevel.contains varno

/-- `return_list`, with the empty list for NULL. -/
def returnList (varno : Nat) (ctx : ContextExists) : List Nat :=
  match ctx.listComposantesConnexes.find? (·.contains varno) with
  | some compo => compo
  | none => if ctx.isSub varno then ctx.composanteConnexeSubLevel else []

def removeFromList (varno : Nat) (ctx : ContextExists) : ContextExists :=
  { ctx with
    listComposantesConnexes := ctx.listComposantesConnexes.filter (!·.contains varno) }

/-- The component of `varno` joins those that an enclosing query restricts. -/
def toSubLevel (varno : Nat) (ctx : ContextExists) : ContextExists :=
  { ctx with
    composanteConnexeSubLevel := ctx.composanteConnexeSubLevel ++ ctx.returnList varno }
  |>.removeFromList varno

/-- The components of two tables become one.  Components are disjoint, so that comparing them
compares the pointers, and `list_concat` extends a list that has just been taken out. -/
def join (varno varno' : Nat) (ctx : ContextExists) : ContextExists :=
  let a := ctx.returnList varno
  let b := ctx.returnList varno'
  if a = b then ctx
  else
    let ctx := (ctx.removeFromList varno).removeFromList varno'
    { ctx with listComposantesConnexes := ctx.listComposantesConnexes ++ [a ++ b] }

/-- The `Var` case of `create_connexe`. -/
def enterVar (v : Var) (ctx : ContextExists) : ContextExists :=
  match ctx.varnoEnCours with
  | none =>
    { ctx with
      varnoEnCours := some v.varno
      varSub := ctx.varSub || (v.varlevelsup > 0 || ctx.isSub v.varno) }
  | some varno =>
    let sub := ctx.isSub v.varno
    if ctx.varSub && (sub || v.varlevelsup > 0) then ctx
    else if ctx.varSub && !sub && v.varlevelsup == 0 then ctx.toSubLevel v.varno
    else if sub || v.varlevelsup > 0 then ctx.toSubLevel varno
    else ctx.join varno v.varno

end ContextExists

/-- One call of `create_connexe`. -/
def createConnexe : Walker α ContextExists
  | .null, _, ctx => (false, ctx)
  | .opExpr _ _, rest, ctx =>
    let (retour, ctx) := rest ctx
    (retour, { ctx with varnoEnCours := none, varSub := false })
  | .var v, _, ctx => (false, ctx.enterVar v)
  | _, rest, ctx => rest ctx

/-! ### Taking a component out of a query -/

/-- The position of `varno` in the list, from 1 on, or 0. -/
def isInList (varno : Nat) (listVarno : List Nat) : Nat :=
  match listVarno.findIdx? (varno == ·) with
  | some i => i + 1
  | none => 0

def deacrease (varno : Nat) (listVarno : List Nat) : Nat :=
  varno - (listVarno.filter (varno > ·)).length

structure TempContextConnexRew (α : Type) where
  listConstraint : List (Node α)
  listVarno : List Nat
  toRemove : Bool

def makeTempContextConnexRew (l : List Nat) : TempContextConnexRew α where
  listConstraint := []
  listVarno := l
  toRemove := false

/-- One call of `mutator_conn`. -/
def mutatorConn : Mutator α (TempContextConnexRew α)
  | .null, _, ctx => some (.null, ctx)
  | .opExpr _ _, traverse, ctx => do
    let (n, ctx) ← traverse ctx
    if ctx.toRemove then
      some (.null, { ctx with listConstraint := ctx.listConstraint ++ [n], toRemove := false })
    else some (n, ctx)
  | .var v, traverse, ctx =>
    traverse <|
      if v.varlevelsup == 0 && isInList v.varno ctx.listVarno != 0 then
        { ctx with toRemove := true }
      else ctx
  | .query targetList rtable fromlist quals, _, ctx =>
    some (.query targetList rtable fromlist quals, ctx)
  | _, traverse, ctx => traverse ctx

/-- The `Var` case of `mutator_target`. -/
def columnInside (listVarno : List Nat) (v : Var) : Option Var :=
  match isInList v.varno listVarno with
  | 0 => none
  | i => some { v with varno := i }

def mutatorTarget (listVarno : List Nat) : Node α → Bool → Option (Node α × Bool) :=
  mutateTarget (columnInside listVarno)

/-- The `Var` case of `mutator_varTarget`. -/
def columnOutside (listVarno : List Nat) (v : Var) : Option Var :=
  if isInList v.varno listVarno ≠ 0 then none
  else some { v with varno := deacrease v.varno listVarno }

def mutatorVarTarget (listVarno : List Nat) : Node α → Bool → Option (Node α × Bool) :=
  mutateTarget (columnOutside listVarno)

def createFromQueryList (listRte : List (Node α)) (constraint : Node α)
    (listTargetEntry : List (Node α)) : Node α :=
  .query listTargetEntry listRte [1] constraint

/-- One call of `mutator_varquals`. -/
def mutatorVarquals (listVarno : List Nat) : Mutator α Unit
  | .null, _, ctx => some (.null, ctx)
  | .var v, _, ctx =>
    some (.var (if v.varlevelsup = 0 then { v with varno := deacrease v.varno listVarno } else v),
      ctx)
  | .query targetList rtable fromlist quals, _, ctx =>
    some (.query targetList rtable fromlist quals, ctx)
  | _, traverse, ctx => traverse ctx

/-- The loop of `substract`, which keeps an element before it tests the counter. -/
def substractLoop {β : Type} : List β → Int → List β
  | [], _ => []
  | x :: xs, i => if i ≤ 1 then [x] else x :: substractLoop xs (i - 1)

def substract {β : Type} (input : List β) (nb : Nat) : List β :=
  substractLoop input ((input.length : Int) - nb)

/-- The deletions from the range table, the `i`-th one at an index that the earlier ones have
moved. -/
def deleteRtes {β : Type} : List Nat → Nat → List β → Option (List β)
  | [], _, rtable => some rtable
  | v :: listVarno, i, rtable => do
    let _ ← listNth rtable ((v : Int) - 1 - i)
    deleteRtes listVarno (i + 1) (rtable.eraseIdx ((v : Int) - 1 - i).toNat)

/-- A list of constraints as a pointer. -/
def constraintList : List (Node α) → Node α
  | [] => .null
  | list => .list list

def rewriteConnexe (listVarno : List Nat) : Node α → Option (Node α)
  | .query targetList rtable fromlist quals => do
    let (quals, ctx) ← expressionTreeMutator mutatorConn quals (makeTempContextConnexRew listVarno)
    let fromlist := substract fromlist listVarno.length
    let (n, toAdd) ← mutatorTarget listVarno (.list targetList) false
    let lrte ← listVarno.mapM fun v => listNth rtable ((v : Int) - 1)
    -- a sub-link made by `makeNode` is an EXISTS
    let ex := .subLink .existsSublink .null
      (createFromQueryList lrte (constraintList ctx.listConstraint) n.elems)
    let rtable ← deleteRtes listVarno 0 rtable
    let (targetList, _) ← mutatorVarTarget listVarno (.list targetList) toAdd
    let (quals, _) ← mutate (mutatorVarquals listVarno) quals ()
    some (.query targetList.elems rtable fromlist (.boolExpr .andExpr [quals, ex]))
  | _ => none

/-- The loop of `optimize_exist`, over the components that are left.  Each round takes one out of
the list, so that its length bounds the rounds. -/
def rewriteLoop : Nat → List (List Nat) → Node α → Option (Node α)
  | _, [], nq => some nq
  | 0, _ :: _, _ => none
  | rounds + 1, listVarno :: list, nq => do
    let nq ← rewriteConnexe listVarno nq
    rewriteLoop rounds (list.map fun compo => compo.map (deacrease · listVarno)) nq

def rewriteComponents (list : List (List Nat)) (nq : Node α) : Option (Node α) :=
  rewriteLoop list.length list nq

/-- What `create_connexe` computes for a WHERE over `n` FROM entries. -/
def components (n : Nat) (quals : Node α) : ContextExists :=
  (walk createConnexe quals (makeContextExists n)).2

/-- The components of a query.  Its range table is asked for its length, and NIL has none. -/
def connexes (nq : Node α) : Option ContextExists :=
  match nq.rtable with
  | [] => none
  | rtable => some (components rtable.length nq.quals)

def optimizeExist (nq : Node α) : Option (Node α) := do
  let nq ← Self.optimizeSelfConstraint nq
  let ctx ← connexes nq
  rewriteComponents ctx.listComposantesConnexes nq

theorem connexes_eq {nq : Node α} (h : nq.rtable ≠ []) :
    connexes nq = some (components nq.rtable.length nq.quals) := by
  unfold connexes
  split
  · next hnil => exact absurd hnil h
  · rfl

end Infed.Exist
