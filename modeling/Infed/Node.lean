/-! Parse-tree nodes after parse analysis, and the two generic traversals that every pass is built
on: `expression_tree_walker` and `expression_tree_mutator` of `nodes/nodeFuncs.c`.

A tree is one untyped `Node`, as in the source, because the passes build trees that no typed syntax
has: a `NULL` among the arguments of an AND, or a bare `List` where an expression is expected.  The
`jointree` of a query is inlined: its `fromlist` as the `rtindex` of each `RangeTblRef`, and its
`quals`.  Locations, collations, result types, and aliases play no part in any pass and are left
out. -/

namespace Infed

abbrev Oid := Nat

inductive BoolExprType where
  | andExpr
  | orExpr
  | notExpr
  deriving DecidableEq, Repr

inductive NullTestType where
  | isNull
  | isNotNull
  deriving DecidableEq, Repr

/-- The sub-link kinds with a meaning in a WHERE clause; the zero of `makeNode` is
`existsSublink`. -/
inductive SubLinkType where
  | existsSublink
  | allSublink
  | anySublink
  | exprSublink
  deriving DecidableEq, Repr

inductive RteKind where
  | rteRelation
  | rteSubquery
  deriving DecidableEq, Repr

/-- A column reference: attribute `varattno` of the `varno`-th FROM entry of the query
`varlevelsup` levels up. -/
structure Var where
  varno : Nat
  varattno : Nat
  varlevelsup : Nat
  deriving DecidableEq, Repr

/-- A node of the parse tree over constants of type `α`; `null` is the `NULL` pointer. -/
inductive Node (α : Type) where
  | null
  | var (v : Var)
  | const (constvalue : Option α)
  | param (paramid : Nat)
  | opExpr (opno : Oid) (args : List (Node α))
  | boolExpr (boolop : BoolExprType) (args : List (Node α))
  | nullTest (nulltesttype : NullTestType) (arg : Node α)
  | subLink (subLinkType : SubLinkType) (testexpr subselect : Node α)
  | query (targetList rtable : List (Node α)) (fromlist : List Nat) (quals : Node α)
  | rangeTblEntry (rtekind : RteKind) (relid : Oid) (subquery : Node α)
  | targetEntry (expr : Node α) (resno : Nat)
  | list (elems : List (Node α))
  deriving Repr

variable {α σ : Type}

namespace Node

def targetList : Node α → List (Node α)
  | query targetList _ _ _ => targetList
  | _ => []

def rtable : Node α → List (Node α)
  | query _ rtable _ _ => rtable
  | _ => []

def fromlist : Node α → List Nat
  | query _ _ fromlist _ => fromlist
  | _ => []

def quals : Node α → Node α
  | query _ _ _ quals => quals
  | _ => null

/-- The node is an EXISTS sub-link. -/
def isExists : Node α → Bool
  | subLink .existsSublink _ _ => true
  | _ => false

end Node

/-! ### Mutators -/

/-- One call of a mutator: from a node, what `expression_tree_mutator` does to it with this
mutator, and a context, to the replacement and the new context; `none` is a failed assertion or
an `elog(ERROR)`. -/
abbrev Mutator (α σ : Type) := Node α → (σ → Option (Node α × σ)) → σ → Option (Node α × σ)

mutual

/-- A mutator run on a tree.  For a `Query` node, whose `expression_tree_mutator` does nothing, the
traversal handed to `f` is the one of its `jointree`, which is what the mutators that enter
sub-selects run. -/
def mutate (f : Mutator α σ) : Node α → σ → Option (Node α × σ)
  | .null => f .null fun s => some (.null, s)
  | .var v => f (.var v) fun s => some (.var v, s)
  | .const c => f (.const c) fun s => some (.const c, s)
  | .param i => f (.param i) fun s => some (.param i, s)
  | .opExpr opno args => f (.opExpr opno args) fun s => do
    let (args, s) ← mutateList f args s
    some (.opExpr opno args, s)
  | .boolExpr boolop args => f (.boolExpr boolop args) fun s => do
    let (args, s) ← mutateList f args s
    some (.boolExpr boolop args, s)
  | .nullTest test arg => f (.nullTest test arg) fun s => do
    let (arg, s) ← mutate f arg s
    some (.nullTest test arg, s)
  | .subLink kind testexpr subselect => f (.subLink kind testexpr subselect) fun s => do
    let (testexpr, s) ← mutate f testexpr s
    let (subselect, s) ← mutate f subselect s
    some (.subLink kind testexpr subselect, s)
  | .query targetList rtable fromlist quals =>
    f (.query targetList rtable fromlist quals) fun s => do
      let (quals, s) ← mutate f quals s
      some (.query targetList rtable fromlist quals, s)
  | .rangeTblEntry kind relid subquery => f (.rangeTblEntry kind relid subquery) fun _ => none
  | .targetEntry expr resno => f (.targetEntry expr resno) fun s => do
    let (expr, s) ← mutate f expr s
    some (.targetEntry expr resno, s)
  | .list elems => f (.list elems) fun s => do
    let (elems, s) ← mutateList f elems s
    some (.list elems, s)

/-- The `T_List` case: the mutator on each element in turn. -/
def mutateList (f : Mutator α σ) : List (Node α) → σ → Option (List (Node α) × σ)
  | [], s => some ([], s)
  | node :: nodes, s => do
    let (node, s) ← mutate f node s
    let (nodes, s) ← mutateList f nodes s
    some (node :: nodes, s)

end

/-- `expression_tree_mutator` called on a node: the mutator on each of its sub-nodes. -/
def expressionTreeMutator (f : Mutator α σ) : Node α → σ → Option (Node α × σ)
  | .opExpr opno args, s => do
    let (args, s) ← mutateList f args s
    some (.opExpr opno args, s)
  | .boolExpr boolop args, s => do
    let (args, s) ← mutateList f args s
    some (.boolExpr boolop args, s)
  | .nullTest test arg, s => do
    let (arg, s) ← mutate f arg s
    some (.nullTest test arg, s)
  | .subLink kind testexpr subselect, s => do
    let (testexpr, s) ← mutate f testexpr s
    let (subselect, s) ← mutate f subselect s
    some (.subLink kind testexpr subselect, s)
  | .targetEntry expr resno, s => do
    let (expr, s) ← mutate f expr s
    some (.targetEntry expr resno, s)
  | .list elems, s => do
    let (elems, s) ← mutateList f elems s
    some (.list elems, s)
  | .rangeTblEntry _ _ _, _ => none
  | node, s => some (node, s)

/-! ### Walkers -/

/-- One call of a walker: from a node, the walk of its sub-nodes, and a context, to the returned
flag, which aborts the walk when it is set, and the new context. -/
abbrev Walker (α σ : Type) := Node α → (σ → Bool × σ) → σ → Bool × σ

mutual

/-- A walker run on a tree.  `expression_tree_walker` does nothing with a `Query` node, and no
walker built with `walk` enters one. -/
def walk (f : Walker α σ) : Node α → σ → Bool × σ
  | .opExpr opno args => f (.opExpr opno args) (walkList f args)
  | .boolExpr boolop args => f (.boolExpr boolop args) (walkList f args)
  | .nullTest test arg => f (.nullTest test arg) (walk f arg)
  | .subLink kind testexpr subselect => f (.subLink kind testexpr subselect) fun s =>
    let (stop, s) := walk f testexpr s
    if stop then (true, s) else walk f subselect s
  | .targetEntry expr resno => f (.targetEntry expr resno) (walk f expr)
  | .list elems => f (.list elems) (walkList f elems)
  | node => f node fun s => (false, s)

def walkList (f : Walker α σ) : List (Node α) → σ → Bool × σ
  | [], s => (false, s)
  | node :: nodes, s =>
    let (stop, s) := walk f node s
    if stop then (true, s) else walkList f nodes s

end

/-! ### Invariants of walkers -/

section Invariant

variable {f : Walker α σ} {P : σ → Prop}

mutual

/-- What every call of a walker keeps, if the walk of the sub-nodes does, the walk keeps. -/
theorem walk_keeps (hf : ∀ node rest, (∀ s, P s → P (rest s).2) → ∀ s, P s → P (f node rest s).2) :
    ∀ (node : Node α) (s : σ), P s → P (walk f node s).2
  | .opExpr _ args, s, hs | .boolExpr _ args, s, hs | .list args, s, hs => by
    rw [walk]
    exact hf _ _ (walkList_keeps hf args) s hs
  | .nullTest _ arg, s, hs | .targetEntry arg _, s, hs => by
    rw [walk]
    exact hf _ _ (walk_keeps hf arg) s hs
  | .subLink _ testexpr subselect, s, hs => by
    rw [walk]
    refine hf _ _ (fun s hs => ?_) s hs
    have htest := walk_keeps hf testexpr s hs
    dsimp only
    split
    · exact htest
    · exact walk_keeps hf subselect _ htest
  | .null, s, hs | .var _, s, hs | .const _, s, hs | .param _, s, hs | .query _ _ _ _, s, hs
  | .rangeTblEntry _ _ _, s, hs => hf _ _ (fun _ h => h) s hs

theorem walkList_keeps
    (hf : ∀ node rest, (∀ s, P s → P (rest s).2) → ∀ s, P s → P (f node rest s).2) :
    ∀ (nodes : List (Node α)) (s : σ), P s → P (walkList f nodes s).2
  | [], _, hs => hs
  | node :: nodes, s, hs => by
    rw [walkList]
    have hnode := walk_keeps hf node s hs
    dsimp only
    split
    · exact hnode
    · exact walkList_keeps hf nodes _ hnode

end

end Invariant

/-! ### Mutators that copy -/

section Copy

variable {f : Mutator α σ}

theorem mutateList_cons {node node' : Node α} {nodes nodes' : List (Node α)} {s s' s'' : σ}
    (hHead : mutate f node s = some (node', s'))
    (hTail : mutateList f nodes s' = some (nodes', s'')) :
    mutateList f (node :: nodes) s = some (node' :: nodes', s'') := by
  simp [mutateList, hHead, hTail]

theorem mutateList_fixed {nodes : List (Node α)} {s : σ}
    (h : ∀ node ∈ nodes, mutate f node s = some (node, s)) :
    mutateList f nodes s = some (nodes, s) := by
  induction nodes with
  | nil => rfl
  | cons node nodes ih =>
    exact mutateList_cons (h node List.mem_cons_self)
      (ih fun n hn => h n (List.mem_cons_of_mem _ hn))

/-- A mutator that copies each element of a list, whatever it does to the context within an
invariant, copies the list. -/
theorem mutateList_copy {P : σ → σ → Prop} (hrefl : ∀ s, P s s)
    (htrans : ∀ s1 s2 s3, P s1 s2 → P s2 s3 → P s1 s3) :
    ∀ {nodes : List (Node α)},
      (∀ node ∈ nodes, ∀ s, ∃ s', mutate f node s = some (node, s') ∧ P s s') →
      ∀ s, ∃ s', mutateList f nodes s = some (nodes, s') ∧ P s s'
  | [], _, s => ⟨s, rfl, hrefl s⟩
  | node :: nodes, h, s => by
    obtain ⟨s1, h1, p1⟩ := h node (by simp) s
    obtain ⟨s2, h2, p2⟩ := mutateList_copy hrefl htrans
      (fun n hn => h n (List.mem_cons_of_mem _ hn)) s1
    exact ⟨s2, mutateList_cons h1 h2, htrans _ _ _ p1 p2⟩

end Copy

end Infed
