import Infed.References
import Infed.TrueVar

/-! The mutators that take over a target list for a new FROM: `modif_targetEntry` of
`self_optimize.c`, and `mutator_target` and `mutator_varTarget` of `exist_optimize.c`.  They differ
in what they do to a column; an entry in which no column is kept is dropped, and the others are
numbered from 1. -/

namespace Infed

variable {α : Type}

/-- A pointer cast to `List *`. -/
def Node.elems : Node α → List (Node α)
  | .list elems => elems
  | _ => []

/-- `n->resno = i`.  In the argument of an operator `n` is no target entry, and the assignment
writes to a field that stands at that place (`vartypmod` of a column); such a node is dropped with
the entry around it. -/
def Node.setResno (i : Nat) : Node α → Option (Node α)
  | .null => none
  | .targetEntry expr _ => some (.targetEntry expr i)
  | n => some n

mutual

/-- The mutator that replaces a column by `onVar`, where `none` stands for NULL, with the flag
`to_add`. -/
def mutateTarget (onVar : Var → Option Var) : Node α → Bool → Option (Node α × Bool)
  | .var v, toAdd =>
    match onVar v with
    | none => some (.null, toAdd)
    | some v => some (.var v, true)
  | .list elems, toAdd => do
    let (elems, toAdd) ← mutateTargets onVar elems 1 toAdd
    some (.list elems, toAdd)
  | .opExpr opno args, toAdd => do
    let (args, toAdd) ← mutateTargets onVar args 1 toAdd
    some (.opExpr opno args, toAdd)
  | .boolExpr boolop args, toAdd => do
    let (args, toAdd) ← mutateTargets onVar args 1 toAdd
    some (.boolExpr boolop args, toAdd)
  | .nullTest test arg, toAdd => do
    let (arg, toAdd) ← mutateTarget onVar arg toAdd
    some (.nullTest test arg, toAdd)
  | .subLink kind testexpr subselect, toAdd => do
    let (testexpr, toAdd) ← mutateTarget onVar testexpr toAdd
    some (.subLink kind testexpr subselect, toAdd)
  | .targetEntry expr resno, toAdd => do
    let (expr, toAdd) ← mutateTarget onVar expr toAdd
    some (.targetEntry expr resno, toAdd)
  | .rangeTblEntry _ _ _, _ => none
  | node, toAdd => some (node, toAdd)

/-- The `List` case, from the number `i` on.  It is that of a target list and of the arguments of
an operator alike, and clears the flag after every element, so that an entry with an operator is
dropped whatever columns it has. -/
def mutateTargets (onVar : Var → Option Var) : List (Node α) → Nat → Bool →
    Option (List (Node α) × Bool)
  | [], _, toAdd => some ([], toAdd)
  | t :: list, i, toAdd => do
    match ← mutateTarget onVar t toAdd with
    | (n, true) =>
      let n ← n.setResno i
      let (result, toAdd) ← mutateTargets onVar list (i + 1) false
      some (n :: result, toAdd)
    | (_, false) => mutateTargets onVar list i false

end

/-! ### What is left of a target list -/

mutual

/-- The mutator returns on every expression, and NULL is never kept. -/
theorem mutateTarget_returns (onVar : Var → Option Var) : ∀ (t : Node α), t.isExpression = true →
    ∃ t' toAdd, mutateTarget onVar t false = some (t', toAdd) ∧ t'.isExpression = true ∧
      (t' = .null → toAdd = false)
  | .var v, _ => by
    cases hv : onVar v with
    | none => exact ⟨.null, false, by simp [mutateTarget, hv], rfl, fun _ => rfl⟩
    | some v' => exact ⟨.var v', true, by simp [mutateTarget, hv], rfl, fun h => by cases h⟩
  | .list args, h => by
    obtain ⟨result, hrun, hresult⟩ := mutateTargets_returns onVar args h 1
    exact ⟨.list result, false, by simp [mutateTarget, hrun], hresult, fun h => by cases h⟩
  | .opExpr opno args, h => by
    obtain ⟨result, hrun, hresult⟩ := mutateTargets_returns onVar args h 1
    exact ⟨.opExpr opno result, false, by simp [mutateTarget, hrun], hresult, fun h => by cases h⟩
  | .boolExpr boolop args, h => by
    obtain ⟨result, hrun, hresult⟩ := mutateTargets_returns onVar args h 1
    exact ⟨.boolExpr boolop result, false, by simp [mutateTarget, hrun], hresult,
      fun h => by cases h⟩
  | .nullTest test arg, h => by
    obtain ⟨arg', toAdd, hrun, harg, _⟩ := mutateTarget_returns onVar arg h
    exact ⟨.nullTest test arg', toAdd, by simp [mutateTarget, hrun], harg, fun h => by cases h⟩
  | .targetEntry arg resno, h => by
    obtain ⟨arg', toAdd, hrun, harg, _⟩ := mutateTarget_returns onVar arg h
    exact ⟨.targetEntry arg' resno, toAdd, by simp [mutateTarget, hrun], harg, fun h => by cases h⟩
  | .subLink kind arg subselect, h => by
    rw [Node.isExpression, Bool.and_eq_true] at h
    obtain ⟨arg', toAdd, hrun, harg, _⟩ := mutateTarget_returns onVar arg h.1
    exact ⟨.subLink kind arg' subselect, toAdd, by simp [mutateTarget, hrun],
      by simp [Node.isExpression, harg, h.2], fun h => by cases h⟩
  | .rangeTblEntry _ _ _, h => by cases h
  | .null, h | .const _, h | .param _, h | .query _ _ _ _, h => ⟨_, _, rfl, h, fun _ => rfl⟩

/-- What is left of a list of expressions is one, with the flag cleared. -/
theorem mutateTargets_returns (onVar : Var → Option Var) : ∀ (list : List (Node α)),
    Node.areExpressions list = true → ∀ i, ∃ result,
      mutateTargets onVar list i false = some (result, false) ∧
      Node.areExpressions result = true
  | [], _, _ => ⟨[], rfl, rfl⟩
  | t :: list, h, i => by
    rw [Node.areExpressions, Bool.and_eq_true] at h
    obtain ⟨t', toAdd, ht, hexpr, hnull⟩ := mutateTarget_returns onVar t h.1
    cases toAdd with
    | false =>
      obtain ⟨result, hrun, hresult⟩ := mutateTargets_returns onVar list h.2 i
      exact ⟨result, by simp [mutateTargets, ht, hrun], hresult⟩
    | true =>
      obtain ⟨result, hrun, hresult⟩ := mutateTargets_returns onVar list h.2 (i + 1)
      obtain ⟨n, hn, hexpr'⟩ : ∃ n, t'.setResno i = some n ∧ n.isExpression = true := by
        cases t' with
        | null => cases hnull rfl
        | _ => exact ⟨_, rfl, hexpr⟩
      exact ⟨n :: result, by simp [mutateTargets, ht, hn, hrun],
        by simp [Node.areExpressions, hexpr', hresult]⟩

end

/-- What is left of a target list. -/
def keptTargets (onVar : Var → Option Var) (targetList : List (Node α)) : List (Node α) :=
  ((mutateTargets onVar targetList 1 false).map Prod.fst).getD []

theorem mutateTarget_list (onVar : Var → Option Var) {targetList : List (Node α)}
    (h : Node.areExpressions targetList = true) :
    mutateTarget onVar (.list targetList) false =
      some (.list (keptTargets onVar targetList), false) := by
  obtain ⟨result, hrun, _⟩ := mutateTargets_returns onVar targetList h 1
  simp [mutateTarget, keptTargets, hrun]

theorem areExpressions_keptTargets (onVar : Var → Option Var) {targetList : List (Node α)}
    (h : Node.areExpressions targetList = true) :
    Node.areExpressions (keptTargets onVar targetList) = true := by
  obtain ⟨result, hrun, hresult⟩ := mutateTargets_returns onVar targetList h 1
  simpa [keptTargets, hrun] using hresult

/-- Target entries for columns, numbered from `i` on. -/
def targetEntries : Nat → List Var → List (Node α)
  | _, [] => []
  | i, v :: vars => .targetEntry (.var v) i :: targetEntries (i + 1) vars

/-- A target entry for a column or a constant. -/
inductive SimpleEntry : Node α → Prop where
  | column {v resno} : SimpleEntry (.targetEntry (.var v) resno)
  | constant {c resno} : SimpleEntry (.targetEntry (.const c) resno)

/-- The column of a target entry. -/
def entryColumn : Node α → Option Var
  | .targetEntry (.var v) _ => some v
  | _ => none

/-- Of simple entries, the columns that are kept are left. -/
theorem mutateTargets_columns (onVar : Var → Option Var) {list : List (Node α)}
    (h : ∀ t ∈ list, SimpleEntry t) (i : Nat) :
    mutateTargets onVar list i false =
      some (targetEntries i ((list.filterMap entryColumn).filterMap onVar), false) := by
  induction list generalizing i with
  | nil => rfl
  | cons t list ih =>
    rw [List.forall_mem_cons] at h
    cases h.1 with
    | @column v resno =>
      cases hv : onVar v <;>
        simp [mutateTargets, mutateTarget, Node.setResno, entryColumn, targetEntries, hv, ih h.2]
    | constant => simp [mutateTargets, mutateTarget, entryColumn, List.filterMap_cons, ih h.2]

theorem SimpleEntry.areExpressions {list : List (Node α)} (h : ∀ t ∈ list, SimpleEntry t) :
    Node.areExpressions list = true :=
  Node.areExpressions_iff.mpr fun t ht => by cases h t ht <;> rfl

theorem keptTargets_columns (onVar : Var → Option Var) {list : List (Node α)}
    (h : ∀ t ∈ list, SimpleEntry t) :
    keptTargets onVar list = targetEntries 1 ((list.filterMap entryColumn).filterMap onVar) := by
  simp [keptTargets, mutateTargets_columns onVar h]

theorem simpleEntry_targetEntries (k : Nat) (vars : List Var) :
    ∀ t ∈ (targetEntries k vars : List (Node α)), SimpleEntry t := by
  induction vars generalizing k with
  | nil => simp [targetEntries]
  | cons v vars ih => exact List.forall_mem_cons.mpr ⟨.column, ih (k + 1)⟩

@[simp] theorem filterMap_entryColumn_targetEntries (k : Nat) (vars : List Var) :
    (targetEntries k vars : List (Node α)).filterMap entryColumn = vars := by
  induction vars generalizing k with
  | nil => rfl
  | cons v vars ih => simp [targetEntries, entryColumn, ih]

theorem keptTargets_targetEntries (onVar : Var → Option Var) (k : Nat) (vars : List Var) :
    keptTargets onVar (targetEntries k vars : List (Node α)) =
      targetEntries 1 (vars.filterMap onVar) := by
  rw [keptTargets_columns onVar (simpleEntry_targetEntries k vars),
    filterMap_entryColumn_targetEntries]

end Infed
