import Infed.Exist.Levels
import Infed.Path
import Infed.Self.Deep

/-! The error of `optimize_exist_deep`: a comparison of a column with one of an enclosing query that
`my_mutator` has weakened, in a sub-select that no pass splits. -/

namespace Infed.Exist.Cells

variable {α : Type}

/-- What `my_mutator` of `certain_answer_codd.c` makes of a comparison of two columns that may be
NULL, inside a negation. -/
def weakenedPair (opno : Oid) (x o : Var) : Node α :=
  .boolExpr .orExpr [.nullTest .isNull (.var x), .nullTest .isNull (.var o),
    .opExpr opno [.var x, .var o]]

theorem weakenedPair_clause (opno : Oid) (x o : Var) :
    Self.Clause (weakenedPair opno x o : Node α) := by
  refine .or (List.forall_mem_cons.mpr ⟨.nullTest .column, List.forall_mem_cons.mpr
    ⟨.nullTest .column, List.forall_mem_singleton.mpr (.comparison ?_)⟩⟩)
  exact List.forall_mem_cons.mpr ⟨.column, List.forall_mem_singleton.mpr .column⟩

theorem weakenedPair_stays (opno : Oid) {x o : Var} (h : Self.tableOf x ≠ Self.tableOf o) :
    Self.takes (weakenedPair opno x o : Node α) = false := by
  simpa [weakenedPair, Self.takes, columnsOf, columnsOfList, Self.verdict] using h.symm

theorem optimizeExist_raises {targetList rtable : List (Node α)} {fromlist : List Nat} {opno : Oid}
    {x o : Var} (hx : x.varlevelsup = 0) (h1 : 1 ≤ x.varno) (hn : x.varno ≤ rtable.length)
    (ho : 0 < o.varlevelsup) :
    optimizeExist (.query targetList rtable fromlist (weakenedPair opno x o)) = none := by
  have hclause := weakenedPair_clause (α := α) opno x o
  have hstays : Self.takes (weakenedPair opno x o : Node α) = false :=
    weakenedPair_stays opno (by simp [Self.tableOf]; omega)
  have hself : Self.optimizeSelfConstraint
      (.query targetList rtable fromlist (weakenedPair opno x o)) =
        some (.query targetList rtable fromlist (weakenedPair opno x o)) := by
    refine Self.optimizeSelfConstraint_settled (n := 0) (.clause hclause (by simp [hstays])) ?_ ?_
    · rw [hclause.strip_eq, hstays, if_neg Bool.false_ne_true]
    · rw [hclause.moved_eq, hstays, if_neg Bool.false_ne_true]
  have hin : x.varno ∈ (Exist.makeContextExists rtable.length).listComposantesConnexes.flatten := by
    simp [Exist.makeContextExists]
    omega
  have hmeets : encounters (weakenedPair opno x o : Node α) =
      [] ++ some x :: some o :: some x :: [some o, none] := rfl
  have hwalk : (walk createConnexe (weakenedPair opno x o : Node α)
      (makeContextExists rtable.length)).2 = none :=
    createConnexe_raises hmeets rfl hx rfl hin ho (.inr rfl)
  have hnone : connexes (.query targetList rtable fromlist (weakenedPair opno x o)) = none := by
    have hne : rtable ≠ [] := List.ne_nil_of_length_pos (Nat.lt_of_lt_of_le h1 hn)
    refine (connexes_of_ne_nil ?_).trans (congrArg (Option.bind · _) hwalk)
    exact hne
  simp only [optimizeExist, hself, hnone, Option.bind_eq_bind, Option.bind_some, Option.bind_none]

theorem mutateList_eq_none {f : Mutator α Unit} {nodes : List (Node α)} {node : Node α}
    (hmem : node ∈ nodes) (hnone : mutate f node () = none) : mutateList f nodes () = none := by
  induction nodes with
  | nil => cases hmem
  | cons first nodes ih =>
    rw [mutateList]
    rcases List.mem_cons.mp hmem with rfl | hmem
    · rw [hnone]
      rfl
    · cases mutate f first () with
      | none => rfl
      | some p => simp [ih hmem]

/-- An error at a node is an error at every node above it. -/
theorem mutate_eq_none {path : List Nat} {node target : Node α}
    (hat : nodeAt path node = some target) (hnone : mutate mutatorExistDeep target () = none) :
    mutate mutatorExistDeep node () = none := by
  induction path generalizing node with
  | nil =>
    cases hat
    exact hnone
  | cons i path ih =>
    obtain ⟨child, hchild, hrest⟩ := Option.bind_eq_some_iff.mp hat
    have hchild' := ih hrest
    have hmem := List.mem_of_getElem? hchild
    cases node with
    | opExpr _ args | boolExpr _ args | list args =>
      have hlist : mutateList mutatorExistDeep args () = none := mutateList_eq_none hmem hchild'
      simp only [mutate, mutatorExistDeep, hlist, Option.bind_eq_bind, Option.bind_none]
    | nullTest | targetEntry | query =>
      obtain rfl := List.mem_singleton.mp hmem
      simp only [mutate, mutatorExistDeep, hchild', Option.bind_eq_bind, Option.bind_none]
    | subLink kind testexpr subselect =>
      simp only [mutate, mutatorExistDeep, Option.bind_eq_bind]
      rcases List.mem_cons.mp hmem with rfl | hmem
      · rw [hchild', Option.bind_none]
      · obtain rfl := List.mem_singleton.mp hmem
        cases mutate mutatorExistDeep testexpr () with
        | none => rfl
        | some p => simp [hchild']
    | _ => cases hmem

/-- If some sub-select anywhere in the WHERE compares a column of its own with one of an enclosing
query, and `my_mutator` has weakened the comparison, `optimize_exist_deep` ends with the error of
`list_concat`. -/
theorem optimizeExistDeep_raises {targetList rtable : List (Node α)} {fromlist : List Nat}
    {quals : Node α} {path : List Nat} {innerTargetList innerRtable : List (Node α)}
    {innerFromlist : List Nat} {opno : Oid} {x o : Var}
    (hat : nodeAt path quals =
      some (.query innerTargetList innerRtable innerFromlist (weakenedPair opno x o)))
    (hx : x.varlevelsup = 0) (h1 : 1 ≤ x.varno) (hn : x.varno ≤ innerRtable.length)
    (ho : 0 < o.varlevelsup) :
    optimizeExistDeep (.query targetList rtable fromlist quals) = none := by
  have hcopy := atQueries_mutatorExistDeep.clause (weakenedPair_clause (α := α) opno x o)
  have hinner : mutate mutatorExistDeep
      (.query innerTargetList innerRtable innerFromlist (weakenedPair opno x o)) () = none := by
    simp only [mutate, mutatorExistDeep, hcopy, Option.bind_eq_bind, Option.bind_some,
      optimizeExist_raises hx h1 hn ho, Option.bind_none]
  simp only [optimizeExistDeep, mutate_eq_none hat hinner, Option.bind_eq_bind, Option.bind_none]

end Infed.Exist.Cells
