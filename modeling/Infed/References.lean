import Infed.Eval

/-! The columns that a part of a query refers to.  A reference is counted from the part outwards, so
that those to the queries inside it do not show; the value of the part depends on the others only.
The mutators that renumber columns do so outside the sub-selects, and `mapColumns` says what they
make of an expression. -/

namespace Infed

variable {α : Type} {I : Interp α} {D : Database α}

/-- The reference from outside the query that it occurs in; none if it is to that query. -/
def Var.outward (v : Var) : Option Var :=
  match v.varlevelsup with
  | 0 => none
  | n + 1 => some { v with varlevelsup := n }

mutual

/-- The columns that a node refers to outside of itself. -/
def references : Node α → List Var
  | .var v => [v]
  | .opExpr _ args | .boolExpr _ args | .list args => referencesList args
  | .nullTest _ arg | .targetEntry arg _ | .rangeTblEntry _ _ arg => references arg
  | .subLink _ testexpr subselect => references testexpr ++ references subselect
  | .query targetList rtable _ quals =>
    (referencesList targetList ++ referencesList rtable ++ references quals).filterMap Var.outward
  | _ => []

def referencesList : List (Node α) → List Var
  | [] => []
  | node :: nodes => references node ++ referencesList nodes

end

theorem mem_referencesList {nodes : List (Node α)} {v : Var} :
    v ∈ referencesList nodes ↔ ∃ a ∈ nodes, v ∈ references a := by
  induction nodes with
  | nil => simp [referencesList]
  | cons a nodes ih => simp [referencesList, ih]

/-! ### Environments that agree on them -/

/-- The environments have the same values in these columns. -/
structure Env.AgreeOn (vs : List Var) (ρ ρ' : Env α) : Prop where
  column : ∀ v ∈ vs, ρ.column v = ρ'.column v
  param : ρ.param = ρ'.param

namespace Env.AgreeOn

variable {vs ws : List Var} {ρ ρ' : Env α}

theorem refl (vs : List Var) (ρ : Env α) : AgreeOn vs ρ ρ := ⟨fun _ _ => rfl, rfl⟩

theorem mono (h : AgreeOn vs ρ ρ') (hsub : ∀ v ∈ ws, v ∈ vs) : AgreeOn ws ρ ρ' :=
  ⟨fun v hv => h.column v (hsub v hv), h.param⟩

theorem left (h : AgreeOn (vs ++ ws) ρ ρ') : AgreeOn vs ρ ρ' :=
  h.mono fun _ => List.mem_append_left _

theorem right (h : AgreeOn (vs ++ ws) ρ ρ') : AgreeOn ws ρ ρ' :=
  h.mono fun _ => List.mem_append_right _

theorem withParam (h : AgreeOn vs ρ ρ') (r : Row α) :
    AgreeOn vs { ρ with param := r } { ρ' with param := r } :=
  ⟨h.column, rfl⟩

/-- One query further in, with the same rows of its FROM entries. -/
theorem push (h : AgreeOn (vs.filterMap Var.outward) ρ ρ') (z : List (Nat × Row α)) :
    AgreeOn vs (ρ.push z) (ρ'.push z) := by
  refine ⟨fun v hv => ?_, h.param⟩
  obtain ⟨varno, varattno, varlevelsup⟩ := v
  cases varlevelsup with
  | zero => rfl
  | succ n => exact h.column ⟨varno, varattno, n⟩ (List.mem_filterMap.mpr ⟨_, hv, rfl⟩)

end Env.AgreeOn

mutual

theorem evalScalar_agree : ∀ (node : Node α) {ρ ρ' : Env α}, ρ.AgreeOn (references node) ρ' →
    evalScalar I D node ρ = evalScalar I D node ρ'
  | .var v, ρ, ρ', h => by rw [evalScalar, evalScalar, h.column v List.mem_cons_self]
  | .param i, ρ, ρ', h => by rw [evalScalar, evalScalar, h.param]
  | .opExpr opno args, ρ, ρ', h => by rw [evalScalar, evalScalar, evalScalars_agree args h]
  | .targetEntry expr resno, ρ, ρ', h => by rw [evalScalar, evalScalar, evalScalar_agree expr h]
  | .subLink .exprSublink test q, ρ, ρ', h => by
    rw [evalScalar, evalScalar, evalQuery_agree q h.right]
  | .subLink .existsSublink _ _, _, _, _ | .subLink .allSublink _ _, _, _, _
  | .subLink .anySublink _ _, _, _, _ | .null, _, _, _ | .const _, _, _, _
  | .boolExpr _ _, _, _, _ | .nullTest _ _, _, _, _ | .query _ _ _ _, _, _, _
  | .rangeTblEntry _ _ _, _, _, _ | .list _, _, _, _ => rfl

theorem evalScalars_agree : ∀ (nodes : List (Node α)) {ρ ρ' : Env α},
    ρ.AgreeOn (referencesList nodes) ρ' → evalScalars I D nodes ρ = evalScalars I D nodes ρ'
  | [], _, _, _ => rfl
  | node :: nodes, ρ, ρ', h => by
    rw [evalScalars, evalScalars, evalScalar_agree node h.left, evalScalars_agree nodes h.right]

theorem evalCond_agree : ∀ (node : Node α) {ρ ρ' : Env α}, ρ.AgreeOn (references node) ρ' →
    evalCond I D node ρ = evalCond I D node ρ'
  | .opExpr opno args, ρ, ρ', h => by rw [evalCond, evalCond, evalScalars_agree args h]
  | .boolExpr .andExpr args, ρ, ρ', h => by rw [evalCond, evalCond, evalConds_agree args h]
  | .boolExpr .orExpr args, ρ, ρ', h => by rw [evalCond, evalCond, evalConds_agree args h]
  | .boolExpr .notExpr args, ρ, ρ', h => by rw [evalCond, evalCond, evalConds_agree args h]
  | .nullTest .isNull arg, ρ, ρ', h => by rw [evalCond, evalCond, evalScalar_agree arg h]
  | .nullTest .isNotNull arg, ρ, ρ', h => by rw [evalCond, evalCond, evalScalar_agree arg h]
  | .subLink .existsSublink test q, ρ, ρ', h => by
    rw [evalCond, evalCond, evalQuery_agree q h.right]
  | .subLink .anySublink test q, ρ, ρ', h => by
    rw [evalCond, evalCond, evalQuery_agree q h.right]
    exact congrArg _ (List.map_congr_left fun r _ => evalCond_agree test (h.left.withParam r))
  | .subLink .allSublink test q, ρ, ρ', h => by
    rw [evalCond, evalCond, evalQuery_agree q h.right]
    exact congrArg _ (List.map_congr_left fun r _ => evalCond_agree test (h.left.withParam r))
  | .list elems, ρ, ρ', h => by rw [evalCond, evalCond, evalConds_agree elems h]
  | .subLink .exprSublink _ _, _, _, _ | .null, _, _, _ | .var _, _, _, _ | .const _, _, _, _
  | .param _, _, _, _ | .query _ _ _ _, _, _, _ | .rangeTblEntry _ _ _, _, _, _
  | .targetEntry _ _, _, _, _ => rfl

theorem evalConds_agree : ∀ (nodes : List (Node α)) {ρ ρ' : Env α},
    ρ.AgreeOn (referencesList nodes) ρ' → evalConds I D nodes ρ = evalConds I D nodes ρ'
  | [], _, _, _ => rfl
  | node :: nodes, ρ, ρ', h => by
    rw [evalConds, evalConds, evalCond_agree node h.left, evalConds_agree nodes h.right]

theorem evalQuery_agree : ∀ (node : Node α) {ρ ρ' : Env α}, ρ.AgreeOn (references node) ρ' →
    evalQuery I D node ρ = evalQuery I D node ρ'
  | .query targetList rtable fromlist quals, ρ, ρ', h => by
    have hparts := fun z => Env.AgreeOn.push h z
    rw [evalQuery, evalQuery, evalRtable_agree rtable (hparts []).left.right]
    simp only [evalCond_agree quals (hparts _).right,
      evalScalars_agree targetList (hparts _).left.left]
  | .null, _, _, _ | .var _, _, _, _ | .const _, _, _, _ | .param _, _, _, _ | .opExpr _ _, _, _, _
  | .boolExpr _ _, _, _, _ | .nullTest _ _, _, _, _ | .subLink _ _ _, _, _, _
  | .rangeTblEntry _ _ _, _, _, _ | .targetEntry _ _, _, _, _ | .list _, _, _, _ => rfl

theorem evalRte_agree : ∀ (node : Node α) {ρ ρ' : Env α}, ρ.AgreeOn (references node) ρ' →
    evalRte I D node ρ = evalRte I D node ρ'
  | .rangeTblEntry .rteSubquery relid q, ρ, ρ', h => by rw [evalRte, evalRte, evalQuery_agree q h]
  | .rangeTblEntry .rteRelation _ _, _, _, _ | .null, _, _, _ | .var _, _, _, _
  | .const _, _, _, _ | .param _, _, _, _ | .opExpr _ _, _, _, _ | .boolExpr _ _, _, _, _
  | .nullTest _ _, _, _, _ | .subLink _ _ _, _, _, _ | .query _ _ _ _, _, _, _
  | .targetEntry _ _, _, _, _ | .list _, _, _, _ => rfl

theorem evalRtable_agree : ∀ (nodes : List (Node α)) {ρ ρ' : Env α},
    ρ.AgreeOn (referencesList nodes) ρ' → evalRtable I D nodes ρ = evalRtable I D nodes ρ'
  | [], _, _, _ => rfl
  | node :: nodes, ρ, ρ', h => by
    rw [evalRtable, evalRtable, evalRte_agree node h.left, evalRtable_agree nodes h.right]

end

/-- The rows of the FROM entry do not depend on the rows around it. -/
def Closed (rte : Node α) : Prop :=
  ∀ I D {ρ ρ' : Env α}, ρ.param = ρ'.param → evalRte I D rte ρ = evalRte I D rte ρ'

/-- A FROM entry that refers to nothing outside of it has the same rows everywhere. -/
theorem closed_of_references {rte : Node α} (h : references rte = []) : Closed rte :=
  fun _ _ _ _ hparam => evalRte_agree rte ⟨fun _ hv => absurd (h ▸ hv) List.not_mem_nil, hparam⟩

/-! ### Renumbering outside the sub-selects -/

mutual

/-- No range table entry stands outside the sub-selects, as in every expression:
`expression_tree_mutator` has no case for one. -/
def Node.isExpression : Node α → Bool
  | .opExpr _ args | .boolExpr _ args | .list args => Node.areExpressions args
  | .nullTest _ arg | .targetEntry arg _ => arg.isExpression
  | .subLink _ testexpr subselect => testexpr.isExpression && subselect.isExpression
  | .rangeTblEntry _ _ _ => false
  | _ => true

def Node.areExpressions : List (Node α) → Bool
  | [] => true
  | node :: nodes => node.isExpression && Node.areExpressions nodes

end

theorem Node.areExpressions_iff {nodes : List (Node α)} :
    Node.areExpressions nodes = true ↔ ∀ node ∈ nodes, node.isExpression = true := by
  induction nodes with
  | nil => simp [Node.areExpressions]
  | cons node nodes ih => simp [Node.areExpressions, ih]

mutual

/-- The columns of an expression from left to right, outside its sub-selects. -/
def columnsOf : Node α → List Var
  | .var v => [v]
  | .opExpr _ args | .boolExpr _ args | .list args => columnsOfList args
  | .nullTest _ arg | .targetEntry arg _ => columnsOf arg
  | .subLink _ testexpr subselect => columnsOf testexpr ++ columnsOf subselect
  | _ => []

def columnsOfList : List (Node α) → List Var
  | [] => []
  | node :: nodes => columnsOf node ++ columnsOfList nodes

end

mutual

/-- The columns that the sub-selects of an expression refer to. -/
def innerColumns : Node α → List Var
  | .opExpr _ args | .boolExpr _ args | .list args => innerColumnsList args
  | .nullTest _ arg | .targetEntry arg _ => innerColumns arg
  | .subLink _ testexpr subselect => innerColumns testexpr ++ innerColumns subselect
  | .query targetList rtable fromlist quals =>
    references (.query targetList rtable fromlist quals : Node α)
  | _ => []

def innerColumnsList : List (Node α) → List Var
  | [] => []
  | node :: nodes => innerColumns node ++ innerColumnsList nodes

end

mutual

/-- The expression with `f` of each column outside its sub-selects. -/
def mapColumns (f : Var → Var) : Node α → Node α
  | .var v => .var (f v)
  | .opExpr opno args => .opExpr opno (mapColumnsList f args)
  | .boolExpr boolop args => .boolExpr boolop (mapColumnsList f args)
  | .nullTest test arg => .nullTest test (mapColumns f arg)
  | .subLink kind testexpr subselect =>
    .subLink kind (mapColumns f testexpr) (mapColumns f subselect)
  | .targetEntry expr resno => .targetEntry (mapColumns f expr) resno
  | .list elems => .list (mapColumnsList f elems)
  | node => node

def mapColumnsList (f : Var → Var) : List (Node α) → List (Node α)
  | [] => []
  | node :: nodes => mapColumns f node :: mapColumnsList f nodes

end

theorem mapColumnsList_eq_map (f : Var → Var) (nodes : List (Node α)) :
    mapColumnsList f nodes = nodes.map (mapColumns f) := by
  induction nodes with
  | nil => rfl
  | cons node nodes ih => rw [mapColumnsList, List.map_cons, ih]

theorem mem_columnsOfList {nodes : List (Node α)} {v : Var} :
    v ∈ columnsOfList nodes ↔ ∃ a ∈ nodes, v ∈ columnsOf a := by
  induction nodes with
  | nil => simp [columnsOfList]
  | cons a nodes ih => simp [columnsOfList, ih]

theorem mem_innerColumnsList {nodes : List (Node α)} {v : Var} :
    v ∈ innerColumnsList nodes ↔ ∃ a ∈ nodes, v ∈ innerColumns a := by
  induction nodes with
  | nil => simp [innerColumnsList]
  | cons a nodes ih => simp [innerColumnsList, ih]

mutual

/-- An expression refers to its columns outside the sub-selects and to what the sub-selects refer
to. -/
theorem mem_references : ∀ {node : Node α}, node.isExpression = true → ∀ {v : Var},
    v ∈ references node ↔ v ∈ columnsOf node ∨ v ∈ innerColumns node
  | .opExpr _ args, h, v | .boolExpr _ args, h, v | .list args, h, v => mem_referencesList' h
  | .nullTest _ arg, h, v | .targetEntry arg _, h, v =>
    mem_references (show arg.isExpression = true from h)
  | .subLink _ testexpr subselect, h, v => by
    rw [Node.isExpression, Bool.and_eq_true] at h
    simp only [references, columnsOf, innerColumns, List.mem_append, mem_references h.1,
      mem_references h.2]
    exact or_or_or_comm
  | .rangeTblEntry _ _ _, h, _ => by cases h
  | .query _ _ _ _, _, _ => by simp [columnsOf, innerColumns]
  | .var _, _, _ => by simp [references, columnsOf, innerColumns]
  | .null, _, _ | .const _, _, _ | .param _, _, _ => by simp [references, columnsOf, innerColumns]

theorem mem_referencesList' : ∀ {nodes : List (Node α)}, Node.areExpressions nodes = true →
    ∀ {v : Var}, v ∈ referencesList nodes ↔ v ∈ columnsOfList nodes ∨ v ∈ innerColumnsList nodes
  | [], _, _ => by simp [referencesList, columnsOfList, innerColumnsList]
  | node :: nodes, h, v => by
    rw [Node.areExpressions, Bool.and_eq_true] at h
    simp only [referencesList, columnsOfList, innerColumnsList, List.mem_append,
      mem_references h.1, mem_referencesList' h.2]
    exact or_or_or_comm

end

mutual

theorem columnsOf_mapColumns (f : Var → Var) : ∀ node : Node α,
    columnsOf (mapColumns f node) = (columnsOf node).map f
  | .var _ | .null | .const _ | .param _ | .query _ _ _ _ | .rangeTblEntry _ _ _ => rfl
  | .opExpr _ args | .boolExpr _ args | .list args => columnsOfList_mapColumns f args
  | .nullTest _ arg | .targetEntry arg _ => columnsOf_mapColumns f arg
  | .subLink _ testexpr subselect => by
    rw [mapColumns, columnsOf, columnsOf_mapColumns f testexpr, columnsOf_mapColumns f subselect,
      columnsOf, List.map_append]

theorem columnsOfList_mapColumns (f : Var → Var) : ∀ nodes : List (Node α),
    columnsOfList (mapColumnsList f nodes) = (columnsOfList nodes).map f
  | [] => rfl
  | node :: nodes => by
    rw [mapColumnsList, columnsOfList, columnsOf_mapColumns f node,
      columnsOfList_mapColumns f nodes, columnsOfList, List.map_append]

end

mutual

theorem innerColumns_mapColumns (f : Var → Var) : ∀ node : Node α,
    innerColumns (mapColumns f node) = innerColumns node
  | .var _ | .null | .const _ | .param _ | .query _ _ _ _ | .rangeTblEntry _ _ _ => rfl
  | .opExpr _ args | .boolExpr _ args | .list args => innerColumnsList_mapColumns f args
  | .nullTest _ arg | .targetEntry arg _ => innerColumns_mapColumns f arg
  | .subLink _ testexpr subselect => by
    rw [mapColumns, innerColumns, innerColumns_mapColumns f testexpr,
      innerColumns_mapColumns f subselect, innerColumns]

theorem innerColumnsList_mapColumns (f : Var → Var) : ∀ nodes : List (Node α),
    innerColumnsList (mapColumnsList f nodes) = innerColumnsList nodes
  | [] => rfl
  | node :: nodes => by
    rw [mapColumnsList, innerColumnsList, innerColumns_mapColumns f node,
      innerColumnsList_mapColumns f nodes, innerColumnsList]

end

mutual

theorem isExpression_mapColumns (f : Var → Var) : ∀ node : Node α,
    (mapColumns f node).isExpression = node.isExpression
  | .var _ | .null | .const _ | .param _ | .query _ _ _ _ | .rangeTblEntry _ _ _ => rfl
  | .opExpr _ args | .boolExpr _ args | .list args => areExpressions_mapColumns f args
  | .nullTest _ arg | .targetEntry arg _ => isExpression_mapColumns f arg
  | .subLink _ testexpr subselect => by
    rw [mapColumns, Node.isExpression, isExpression_mapColumns f testexpr,
      isExpression_mapColumns f subselect, Node.isExpression]

theorem areExpressions_mapColumns (f : Var → Var) : ∀ nodes : List (Node α),
    Node.areExpressions (mapColumnsList f nodes) = Node.areExpressions nodes
  | [] => rfl
  | node :: nodes => by
    rw [mapColumnsList, Node.areExpressions, isExpression_mapColumns f node,
      areExpressions_mapColumns f nodes, Node.areExpressions]

end

/-! ### Mutators that return -/

/-- From a context with `P`, a call returns an expression and a context with `P`. -/
def Returns {σ : Type} (P : σ → Prop) (call : σ → Option (Node α × σ)) : Prop :=
  ∀ s, P s → ∃ out s', call s = some (out, s') ∧ out.isExpression = true ∧ P s'

/-- The mutator returns if it does on the sub-nodes, and on a sub-select in any case. -/
structure Safe {σ : Type} (m : Mutator α σ) (P : σ → Prop) : Prop where
  query : ∀ targetList rtable fromlist quals traverse,
    Returns P (m (.query targetList rtable fromlist quals) traverse)
  other : ∀ node traverse, node.isExpression = true →
    (∀ targetList rtable fromlist quals, node ≠ .query targetList rtable fromlist quals) →
    Returns P traverse → Returns P (m node traverse)

section Safe

variable {σ : Type} {m : Mutator α σ} {P : σ → Prop}

mutual

theorem Safe.mutate (h : Safe m P) : ∀ {node : Node α}, node.isExpression = true →
    Returns P (mutate m node)
  | .query _ _ _ _, _ => h.query _ _ _ _ _
  | .null, hexpr | .var _, hexpr | .const _, hexpr | .param _, hexpr =>
    h.other _ _ hexpr (by simp) fun s hs => ⟨_, s, rfl, hexpr, hs⟩
  | .opExpr opno args, hexpr =>
    h.other _ _ hexpr (by simp) fun s hs => by
      obtain ⟨outs, s', hrun, houts, hs'⟩ := Safe.mutateList h hexpr s hs
      exact ⟨.opExpr opno outs, s', by rw [hrun]; rfl, houts, hs'⟩
  | .boolExpr boolop args, hexpr =>
    h.other _ _ hexpr (by simp) fun s hs => by
      obtain ⟨outs, s', hrun, houts, hs'⟩ := Safe.mutateList h hexpr s hs
      exact ⟨.boolExpr boolop outs, s', by rw [hrun]; rfl, houts, hs'⟩
  | .list args, hexpr =>
    h.other _ _ hexpr (by simp) fun s hs => by
      obtain ⟨outs, s', hrun, houts, hs'⟩ := Safe.mutateList h hexpr s hs
      exact ⟨.list outs, s', by rw [hrun]; rfl, houts, hs'⟩
  | .nullTest test arg, hexpr =>
    h.other _ _ hexpr (by simp) fun s hs => by
      obtain ⟨out, s', hrun, hout, hs'⟩ :=
        Safe.mutate h (show arg.isExpression = true from hexpr) s hs
      exact ⟨.nullTest test out, s', by rw [hrun]; rfl, hout, hs'⟩
  | .targetEntry arg resno, hexpr =>
    h.other _ _ hexpr (by simp) fun s hs => by
      obtain ⟨out, s', hrun, hout, hs'⟩ :=
        Safe.mutate h (show arg.isExpression = true from hexpr) s hs
      exact ⟨.targetEntry out resno, s', by rw [hrun]; rfl, hout, hs'⟩
  | .subLink kind testexpr subselect, hexpr =>
    h.other _ _ hexpr (by simp) fun s hs => by
      rw [Node.isExpression, Bool.and_eq_true] at hexpr
      obtain ⟨out, s1, hrun, hout, hs1⟩ := Safe.mutate h hexpr.1 s hs
      obtain ⟨out', s2, hrun', hout', hs2⟩ := Safe.mutate h hexpr.2 s1 hs1
      refine ⟨.subLink kind out out', s2, ?_, ?_, hs2⟩
      · simp only [hrun, hrun', Option.bind_eq_bind, Option.bind_some]
      · rw [Node.isExpression, hout, hout', Bool.and_self]
  | .rangeTblEntry _ _ _, hexpr => by cases hexpr

theorem Safe.mutateList (h : Safe m P) : ∀ {nodes : List (Node α)},
    Node.areExpressions nodes = true → ∀ s, P s → ∃ outs s',
      mutateList m nodes s = some (outs, s') ∧ Node.areExpressions outs = true ∧ P s'
  | [], _, s, hs => ⟨[], s, rfl, rfl, hs⟩
  | node :: nodes, hexpr, s, hs => by
    rw [Node.areExpressions, Bool.and_eq_true] at hexpr
    obtain ⟨out, s1, hrun, hout, hs1⟩ := Safe.mutate h hexpr.1 s hs
    obtain ⟨outs, s2, hruns, houts, hs2⟩ := Safe.mutateList h hexpr.2 s1 hs1
    refine ⟨out :: outs, s2, mutateList_cons hrun hruns, ?_, hs2⟩
    rw [Node.areExpressions, hout, houts, Bool.and_self]

end

end Safe

/-! ### Renumbering -/

/-- The mutator replaces each column by `f` of it, and does not enter sub-selects. -/
structure MapsColumns (m : Mutator α Unit) (f : Var → Var) : Prop where
  var : ∀ v traverse s, m (.var v) traverse s = some (.var (f v), s)
  query : ∀ targetList rtable fromlist quals traverse s,
    m (.query targetList rtable fromlist quals) traverse s =
      some (.query targetList rtable fromlist quals, s)
  null : ∀ s, m .null (fun s => some (.null, s)) s = some (.null, s)
  other : ∀ node traverse s, node ≠ .null → (∀ v, node ≠ .var v) →
    (∀ targetList rtable fromlist quals, node ≠ .query targetList rtable fromlist quals) →
    m node traverse s = traverse s

section MapsColumns

variable {m : Mutator α Unit} {f : Var → Var}

mutual

theorem MapsColumns.mutate (h : MapsColumns m f) : ∀ (node : Node α), node.isExpression = true →
    mutate m node () = some (mapColumns f node, ())
  | .null, _ => h.null ()
  | .var v, _ => h.var v _ ()
  | .query _ _ _ _, _ => h.query _ _ _ _ _ ()
  | .const _, _ | .param _, _ => by
    rw [Infed.mutate, h.other _ _ _ (by simp) (by simp) (by simp)]
    rfl
  | .opExpr opno args, hexpr | .boolExpr opno args, hexpr | .list args, hexpr => by
    rw [Infed.mutate, h.other _ _ _ (by simp) (by simp) (by simp), h.mutateList args hexpr]
    rfl
  | .nullTest test arg, hexpr | .targetEntry arg test, hexpr => by
    rw [Infed.mutate, h.other _ _ _ (by simp) (by simp) (by simp), h.mutate arg hexpr]
    rfl
  | .subLink kind testexpr subselect, hexpr => by
    rw [Node.isExpression, Bool.and_eq_true] at hexpr
    rw [Infed.mutate, h.other _ _ _ (by simp) (by simp) (by simp)]
    simp only [h.mutate testexpr hexpr.1, h.mutate subselect hexpr.2, Option.bind_eq_bind,
      Option.bind_some, mapColumns]
  | .rangeTblEntry _ _ _, hexpr => by cases hexpr

theorem MapsColumns.mutateList (h : MapsColumns m f) : ∀ (nodes : List (Node α)),
    Node.areExpressions nodes = true →
    mutateList m nodes () = some (mapColumnsList f nodes, ())
  | [], _ => rfl
  | node :: nodes, hexpr => by
    rw [Node.areExpressions, Bool.and_eq_true] at hexpr
    exact mutateList_cons (h.mutate node hexpr.1) (h.mutateList nodes hexpr.2)

end

end MapsColumns

/-- In `ρ'` the new columns `f v` have the values that the columns `own` have in `ρ`, and the
columns `inner` have the same ones. -/
structure Env.Follows (f : Var → Var) (own inner : List Var) (ρ ρ' : Env α) : Prop where
  own : ∀ v ∈ own, ρ'.column (f v) = ρ.column v
  inner : ∀ v ∈ inner, ρ'.column v = ρ.column v
  param : ρ'.param = ρ.param

namespace Env.Follows

variable {f : Var → Var} {own own' inner inner' : List Var} {ρ ρ' : Env α}

theorem left (h : Follows f (own ++ own') (inner ++ inner') ρ ρ') : Follows f own inner ρ ρ' :=
  ⟨fun v hv => h.own v (List.mem_append_left _ hv),
    fun v hv => h.inner v (List.mem_append_left _ hv), h.param⟩

theorem right (h : Follows f (own ++ own') (inner ++ inner') ρ ρ') : Follows f own' inner' ρ ρ' :=
  ⟨fun v hv => h.own v (List.mem_append_right _ hv),
    fun v hv => h.inner v (List.mem_append_right _ hv), h.param⟩

theorem withParam (h : Follows f own inner ρ ρ') (r : Row α) :
    Follows f own inner { ρ with param := r } { ρ' with param := r } :=
  ⟨h.own, h.inner, rfl⟩

end Env.Follows

theorem evalQuery_mapColumns (f : Var → Var) (q : Node α) {ρ ρ' : Env α}
    (h : ρ.Follows f (columnsOf q) (innerColumns q) ρ') :
    evalQuery I D (mapColumns f q) ρ' = evalQuery I D q ρ := by
  cases q with
  | query => exact evalQuery_agree _ ⟨h.inner, h.param⟩
  | _ => rfl

mutual

theorem evalScalar_mapColumns (f : Var → Var) : ∀ (node : Node α) {ρ ρ' : Env α},
    ρ.Follows f (columnsOf node) (innerColumns node) ρ' →
    evalScalar I D (mapColumns f node) ρ' = evalScalar I D node ρ
  | .var v, ρ, ρ', h => h.own v List.mem_cons_self
  | .param i, ρ, ρ', h => congrArg (fun r : Row α => r.getD (i - 1) none) h.param
  | .opExpr opno args, ρ, ρ', h => by
    rw [mapColumns, evalScalar, evalScalar, evalScalars_mapColumns f args h]
  | .targetEntry expr resno, ρ, ρ', h => by
    rw [mapColumns, evalScalar, evalScalar, evalScalar_mapColumns f expr h]
  | .subLink .exprSublink test q, ρ, ρ', h => by
    rw [mapColumns, evalScalar, evalScalar, evalQuery_mapColumns f q h.right]
  | .subLink .existsSublink _ _, _, _, _ | .subLink .allSublink _ _, _, _, _
  | .subLink .anySublink _ _, _, _, _ | .null, _, _, _ | .const _, _, _, _
  | .boolExpr _ _, _, _, _ | .nullTest _ _, _, _, _ | .query _ _ _ _, _, _, _
  | .rangeTblEntry _ _ _, _, _, _ | .list _, _, _, _ => rfl

theorem evalScalars_mapColumns (f : Var → Var) : ∀ (nodes : List (Node α)) {ρ ρ' : Env α},
    ρ.Follows f (columnsOfList nodes) (innerColumnsList nodes) ρ' →
    evalScalars I D (mapColumnsList f nodes) ρ' = evalScalars I D nodes ρ
  | [], _, _, _ => rfl
  | node :: nodes, ρ, ρ', h => by
    rw [mapColumnsList, evalScalars, evalScalars, evalScalar_mapColumns f node h.left,
      evalScalars_mapColumns f nodes h.right]

theorem evalCond_mapColumns (f : Var → Var) : ∀ (node : Node α) {ρ ρ' : Env α},
    ρ.Follows f (columnsOf node) (innerColumns node) ρ' →
    evalCond I D (mapColumns f node) ρ' = evalCond I D node ρ
  | .opExpr opno args, ρ, ρ', h => by
    rw [mapColumns, evalCond, evalCond, evalScalars_mapColumns f args h]
  | .boolExpr .andExpr args, ρ, ρ', h => by
    rw [mapColumns, evalCond, evalCond, evalConds_mapColumns f args h]
  | .boolExpr .orExpr args, ρ, ρ', h => by
    rw [mapColumns, evalCond, evalCond, evalConds_mapColumns f args h]
  | .boolExpr .notExpr args, ρ, ρ', h => by
    rw [mapColumns, evalCond, evalCond, evalConds_mapColumns f args h]
  | .nullTest .isNull arg, ρ, ρ', h => by
    rw [mapColumns, evalCond, evalCond, evalScalar_mapColumns f arg h]
  | .nullTest .isNotNull arg, ρ, ρ', h => by
    rw [mapColumns, evalCond, evalCond, evalScalar_mapColumns f arg h]
  | .subLink .existsSublink test q, ρ, ρ', h => by
    rw [mapColumns, evalCond, evalCond, evalQuery_mapColumns f q h.right]
  | .subLink .anySublink test q, ρ, ρ', h => by
    rw [mapColumns, evalCond, evalCond, evalQuery_mapColumns f q h.right]
    exact congrArg _ (List.map_congr_left fun r _ =>
      evalCond_mapColumns f test (h.left.withParam r))
  | .subLink .allSublink test q, ρ, ρ', h => by
    rw [mapColumns, evalCond, evalCond, evalQuery_mapColumns f q h.right]
    exact congrArg _ (List.map_congr_left fun r _ =>
      evalCond_mapColumns f test (h.left.withParam r))
  | .list elems, ρ, ρ', h => by
    rw [mapColumns, evalCond, evalCond, evalConds_mapColumns f elems h]
  | .subLink .exprSublink _ _, _, _, _ | .null, _, _, _ | .var _, _, _, _ | .const _, _, _, _
  | .param _, _, _, _ | .query _ _ _ _, _, _, _ | .rangeTblEntry _ _ _, _, _, _
  | .targetEntry _ _, _, _, _ => rfl

theorem evalConds_mapColumns (f : Var → Var) : ∀ (nodes : List (Node α)) {ρ ρ' : Env α},
    ρ.Follows f (columnsOfList nodes) (innerColumnsList nodes) ρ' →
    evalConds I D (mapColumnsList f nodes) ρ' = evalConds I D nodes ρ
  | [], _, _, _ => rfl
  | node :: nodes, ρ, ρ', h => by
    rw [mapColumnsList, evalConds, evalConds, evalCond_mapColumns f node h.left,
      evalConds_mapColumns f nodes h.right]

end

end Infed
