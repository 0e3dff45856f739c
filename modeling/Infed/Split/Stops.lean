import Infed.Split

/-! When `trueSplit` stops.  `split_rel` never replaces the root, while `have_to_split` looks at it:
a condition with OR at its root stays in the queue for ever.  With any other root it stops, for
`split_rel` treats NOT as AND, and a condition of ANDs and ORs with AND at its root is split up. -/

namespace Infed.Split

variable {α : Type}

/-- AND, OR and NOT over comparisons, null tests and sub-selects. -/
inductive Tree : Node α → Prop where
  | null : Tree .null
  | comparison {opno args} : orFreeList args = true → Tree (.opExpr opno args)
  | nullTest {test arg} : orFree arg = true → Tree (.nullTest test arg)
  | subLink {kind testexpr subselect} : orFree testexpr = true → orFree subselect = true →
    Tree (.subLink kind testexpr subselect)
  | and {args} : (∀ a ∈ args, Tree a) → Tree (.boolExpr .andExpr args)
  | or {args} : args ≠ [] → (∀ a ∈ args, Tree a) → Tree (.boolExpr .orExpr args)
  | not {args} : (∀ a ∈ args, Tree a) → Tree (.boolExpr .notExpr args)

/-- The root is an OR. -/
def isOr : Node α → Bool
  | .boolExpr .orExpr _ => true
  | _ => false

/-! ### OR at the root -/

theorem expressionTreeMutator_isOr {f : Mutator α ContextSplit} {node out : Node α}
    {ctx ctx' : ContextSplit} (hor : isOr node = true)
    (h : expressionTreeMutator f node ctx = some (out, ctx')) : isOr out = true := by
  unfold isOr at hor
  split at hor
  · simp only [expressionTreeMutator, Option.bind_eq_bind, Option.bind_eq_some_iff] at h
    obtain ⟨⟨args, _⟩, _, hout⟩ := h
    cases hout
    rfl
  · cases hor

/-- The inner loop leaves another OR in the queue. -/
theorem duplicate_isOr {backup : Node α} (hor : isOr backup = true) {fuel : Nat}
    {ctx : ContextSplit} {pile pile' : List (Node α)}
    (h : duplicate backup fuel ctx pile = some pile') : ∃ a ∈ pile', isOr a = true := by
  induction fuel generalizing ctx pile with
  | zero => cases h
  | succ fuel ih =>
    simp only [duplicate, Option.bind_eq_bind, Option.bind_eq_some_iff] at h
    obtain ⟨⟨newNode, ctx'⟩, hnew, hrest⟩ := h
    split at hrest
    · exact ih hrest
    · cases hrest
      exact ⟨newNode, by simp, expressionTreeMutator_isOr hor hnew⟩

theorem mem_duplicate {backup : Node α} {fuel : Nat} {ctx : ContextSplit}
    {pile pile' : List (Node α)} (h : duplicate backup fuel ctx pile = some pile') :
    ∀ a ∈ pile, a ∈ pile' := by
  induction fuel generalizing ctx pile with
  | zero => cases h
  | succ fuel ih =>
    intro a ha
    simp only [duplicate, Option.bind_eq_bind, Option.bind_eq_some_iff] at h
    obtain ⟨⟨newNode, ctx'⟩, _, hrest⟩ := h
    split at hrest
    · exact ih hrest a (List.mem_append_left _ ha)
    · cases hrest
      exact List.mem_append_left _ ha

/-- A queue with an OR in it is never empty. -/
theorem trueSplitLoop_isOr {fuel : Nat} {pile result : List (Node α)}
    (h : ∃ a ∈ pile, isOr a = true) : trueSplitLoop fuel pile result = none := by
  induction fuel generalizing pile result with
  | zero => rfl
  | succ fuel ih =>
    obtain ⟨a, ha, hor⟩ := h
    cases pile with
    | nil => cases ha
    | cons backup pile =>
      rw [trueSplitLoop]
      split
      · cases hdup : duplicate backup fuel makeContextSplit pile with
        | none => rfl
        | some pile' =>
          refine ih ?_
          rcases List.mem_cons.mp ha with rfl | ha
          · exact duplicate_isOr hor hdup
          · exact ⟨a, mem_duplicate hdup a ha, hor⟩
      · next hfree =>
        rcases List.mem_cons.mp ha with rfl | ha
        · unfold isOr at hor
          split at hor
          · exact absurd rfl hfree
          · cases hor
        · exact ih ⟨a, ha, hor⟩

/-! ### NOT as AND -/

mutual

/-- The condition with AND for every NOT. -/
def notAsAnd : Node α → Node α
  | .boolExpr .orExpr args => .boolExpr .orExpr (notAsAndList args)
  | .boolExpr _ args => .boolExpr .andExpr (notAsAndList args)
  | node => node

def notAsAndList : List (Node α) → List (Node α)
  | [] => []
  | node :: nodes => notAsAnd node :: notAsAndList nodes

end

theorem notAsAndList_eq_map (nodes : List (Node α)) : notAsAndList nodes = nodes.map notAsAnd := by
  induction nodes with
  | nil => rfl
  | cons a nodes ih => rw [notAsAndList, ih, List.map_cons]

theorem Tree.splittable {node : Node α} (h : Tree node) : Splittable (notAsAnd node) := by
  have hmap : ∀ {args : List (Node α)}, (∀ a ∈ args, Splittable (notAsAnd a)) →
      ∀ a ∈ notAsAndList args, Splittable a := by
    intro args hargs
    rw [notAsAndList_eq_map, List.forall_mem_map]
    exact hargs
  induction h with
  | null => exact .orFree rfl
  | comparison hargs => exact .orFree hargs
  | nullTest harg => exact .orFree harg
  | subLink htest hsub => exact .orFree (by simp [notAsAnd, orFree, htest, hsub])
  | and _ ih => exact .and (hmap ih)
  | not _ ih => exact .and (hmap ih)
  | or hne _ ih => exact .or (by simpa [notAsAndList_eq_map] using hne) (hmap ih)

theorem listNth_notAsAndList (nodes : List (Node α)) (i : Int) :
    listNth (notAsAndList nodes) i = (listNth nodes i).map notAsAnd := by
  rw [notAsAndList_eq_map, listNth, listNth, List.getElem?_map]

/-- What a mutator returns, with AND for NOT. -/
def mapResult (r : Option (Node α × ContextSplit)) : Option (Node α × ContextSplit) :=
  r.map fun p => (notAsAnd p.1, p.2)

mutual

theorem splitRel_notAsAnd : ∀ (node : Node α) (ctx : ContextSplit),
    mutate splitRel (notAsAnd node) ctx = mapResult (mutate splitRel node ctx)
  | .boolExpr .andExpr args, ctx | .boolExpr .notExpr args, ctx => by
    simp only [notAsAnd, mutate, splitRel, splitRelList_notAsAnd args ctx]
    cases mutateList splitRel args ctx <;> simp [mapResult, notAsAnd]
  | .boolExpr .orExpr args, ctx => by
    simp only [notAsAnd, mutate, splitRel, splitRelList_notAsAnd args ctx]
    cases hstop : ctx.stop with
    | true =>
      cases mutateList splitRel args ctx <;> simp [mapResult, notAsAnd]
    | false =>
      simp only [Bool.false_eq_true, if_false, listNth_notAsAndList]
      cases listNth args ctx.whichIChoose with
      | none => rfl
      | some myArg =>
        simp only [Option.map_some, Option.bind_eq_bind, Option.bind_some, notAsAndList_eq_map,
          List.length_map]
        split <;> rfl
  | .opExpr _ args, ctx => by
    simp only [notAsAnd, mutate, splitRel]
    cases mutateList splitRel args ctx <;> simp [mapResult, notAsAnd]
  | .list args, ctx => by
    simp only [notAsAnd, mutate, splitRel]
    cases mutateList splitRel args ctx <;> simp [mapResult, notAsAnd]
  | .nullTest _ arg, ctx | .targetEntry arg _, ctx => by
    simp only [notAsAnd, mutate, splitRel]
    cases mutate splitRel arg ctx <;> simp [mapResult, notAsAnd]
  | .subLink _ testexpr subselect, ctx => by
    simp only [notAsAnd, mutate, splitRel]
    cases mutate splitRel testexpr ctx with
    | none => rfl
    | some p => cases hsub : mutate splitRel subselect p.2 <;> simp [hsub, mapResult, notAsAnd]
  | .rangeTblEntry _ _ _, _ | .null, _ | .var _, _ | .const _, _ | .param _, _
  | .query _ _ _ _, _ => rfl

theorem splitRelList_notAsAnd : ∀ (nodes : List (Node α)) (ctx : ContextSplit),
    mutateList splitRel (notAsAndList nodes) ctx =
      (mutateList splitRel nodes ctx).map fun p => (notAsAndList p.1, p.2)
  | [], ctx => rfl
  | node :: nodes, ctx => by
    rw [notAsAndList, mutateList, splitRel_notAsAnd node ctx, mutateList]
    cases mutate splitRel node ctx with
    | none => rfl
    | some p =>
      simp only [mapResult, Option.map_some, Option.bind_eq_bind, Option.bind_some,
        splitRelList_notAsAnd nodes p.2]
      cases mutateList splitRel nodes p.2 <;> simp [notAsAndList]

end

/-- `expression_tree_mutator` with `split_rel`, which does not replace the root. -/
theorem expressionTreeMutator_notAsAnd (node : Node α) (ctx : ContextSplit) :
    expressionTreeMutator splitRel (notAsAnd node) ctx =
      mapResult (expressionTreeMutator splitRel node ctx) := by
  cases node with
  | boolExpr boolop args =>
    cases boolop <;>
    · simp only [notAsAnd, expressionTreeMutator, splitRelList_notAsAnd args ctx]
      cases mutateList splitRel args ctx <;> simp [mapResult, notAsAnd]
  | subLink kind testexpr subselect =>
    simp only [notAsAnd, expressionTreeMutator]
    cases mutate splitRel testexpr ctx with
    | none => rfl
    | some p => cases hsub : mutate splitRel subselect p.2 <;> simp [hsub, mapResult, notAsAnd]
  | opExpr _ args | list args =>
    simp only [notAsAnd, expressionTreeMutator]
    cases mutateList splitRel args ctx <;> simp [mapResult, notAsAnd]
  | nullTest _ arg | targetEntry arg _ =>
    simp only [notAsAnd, expressionTreeMutator]
    cases mutate splitRel arg ctx <;> simp [mapResult, notAsAnd]
  | null | var | const | param | query | rangeTblEntry => rfl

mutual

theorem haveToSplit_notAsAnd : ∀ node : Node α, haveToSplit (notAsAnd node) = haveToSplit node
  | .boolExpr .orExpr _ => rfl
  | .boolExpr .andExpr args | .boolExpr .notExpr args => by
    rw [notAsAnd, haveToSplit_and, any_haveToSplit_notAsAnd args, haveToSplit, walk]
    · simp [haveToSplitStep, walkList_haveToSplit]
    · simp
  | .null | .var _ | .const _ | .param _ | .opExpr _ _ | .nullTest _ _ | .subLink _ _ _
  | .query _ _ _ _ | .rangeTblEntry _ _ _ | .targetEntry _ _ | .list _ => rfl

theorem any_haveToSplit_notAsAnd : ∀ nodes : List (Node α),
    (notAsAndList nodes).any haveToSplit = nodes.any haveToSplit
  | [] => rfl
  | node :: nodes => by
    rw [notAsAndList, List.any_cons, List.any_cons, haveToSplit_notAsAnd node,
      any_haveToSplit_notAsAnd nodes]

end

theorem duplicate_notAsAnd (backup : Node α) (fuel : Nat) (ctx : ContextSplit)
    (pile : List (Node α)) :
    duplicate (notAsAnd backup) fuel ctx (pile.map notAsAnd) =
      (duplicate backup fuel ctx pile).map (List.map notAsAnd) := by
  induction fuel generalizing ctx pile with
  | zero => rfl
  | succ fuel ih =>
    rw [duplicate, duplicate, expressionTreeMutator_notAsAnd]
    cases expressionTreeMutator splitRel backup { ctx with stop := false } with
    | none => rfl
    | some p =>
      have happend : pile.map notAsAnd ++ [notAsAnd p.1] = (pile ++ [p.1]).map notAsAnd := by simp
      simp only [mapResult, Option.map_some, Option.bind_eq_bind, Option.bind_some, happend, ih]
      split <;> rfl

/-- `trueSplit` does the same to a condition with AND for every NOT. -/
theorem trueSplitLoop_notAsAnd (fuel : Nat) (pile result : List (Node α)) :
    trueSplitLoop fuel (pile.map notAsAnd) (result.map notAsAnd) =
      (trueSplitLoop fuel pile result).map (List.map notAsAnd) := by
  induction fuel generalizing pile result with
  | zero => rfl
  | succ fuel ih =>
    cases pile with
    | nil => rfl
    | cons backup pile =>
      rw [List.map_cons, trueSplitLoop, trueSplitLoop, haveToSplit_notAsAnd, duplicate_notAsAnd]
      split
      · cases duplicate backup fuel makeContextSplit pile with
        | none => rfl
        | some pile' => exact ih pile' result
      · rw [← ih, List.map_append]
        rfl

/-! ### Termination -/

/-- `trueSplit` stops on a condition exactly if its root is not an OR. -/
theorem trueSplit_stops_iff {node : Node α} (h : Tree node) :
    (∃ fuel result, trueSplit fuel node = some result) ↔ isOr node = false := by
  constructor
  · rintro ⟨fuel, result, hrun⟩
    by_contra hor
    rw [Bool.not_eq_false] at hor
    rw [trueSplit, trueSplitLoop_isOr ⟨node, by simp, hor⟩] at hrun
    cases hrun
  · intro hroot
    have hleaf : orFree node = true → ∃ fuel result, trueSplit fuel node = some result := by
      intro hfree
      refine ⟨2, [node], ?_⟩
      simp [trueSplit, trueSplitLoop, haveToSplit_of_orFree node hfree]
    have hand : (∃ args, notAsAnd node = .boolExpr .andExpr args) →
        ∃ fuel result, trueSplit fuel node = some result := by
      rintro ⟨args, hargs⟩
      have hqueued : Queued (notAsAnd node) := .inr ⟨args, hargs, h.splittable⟩
      obtain ⟨out, hout⟩ := exists_splitsTo (List.forall_mem_singleton.mpr hqueued)
      have hrun := hout.returns (weightSum [notAsAnd node] + 1) [] (Nat.lt_succ_self _)
      have hmap := trueSplitLoop_notAsAnd (weightSum [notAsAnd node] + 1) [node] []
      rw [List.map_singleton, List.map_nil, hrun] at hmap
      obtain ⟨result, hresult, _⟩ := Option.map_eq_some_iff.mp hmap.symm
      exact ⟨_, result, hresult⟩
    cases h with
    | null => exact hleaf rfl
    | comparison hargs => exact hleaf hargs
    | nullTest harg => exact hleaf harg
    | subLink htest hsub => exact hleaf (by simp [orFree, htest, hsub])
    | and _ => exact hand ⟨_, rfl⟩
    | not _ => exact hand ⟨_, rfl⟩
    | or _ _ => cases hroot

/-- `NOT (r.a = 1 OR r.a = 2) AND EXISTS (SELECT FROM s)` -/
def withNot : Node Int :=
  .boolExpr .andExpr [
    .boolExpr .notExpr [.boolExpr .orExpr [.opExpr 96 [.var ⟨1, 1, 0⟩, .const (some 1)],
      .opExpr 96 [.var ⟨1, 1, 0⟩, .const (some 2)]]],
    .subLink .existsSublink .null (.query [] [.rangeTblEntry .rteRelation 2 .null] [1] .null)]

theorem withNot_tree : Tree withNot := by
  refine .and ?_
  simp only [List.forall_mem_cons, List.not_mem_nil, false_imp_iff, implies_true, and_true]
  refine ⟨.not ?_, .subLink rfl rfl⟩
  simp only [List.forall_mem_cons, List.not_mem_nil, false_imp_iff, implies_true, and_true]
  refine .or (by simp) ?_
  simp only [List.forall_mem_cons, List.not_mem_nil, false_imp_iff, implies_true, and_true]
  exact ⟨.comparison rfl, .comparison rfl⟩

theorem trueSplit_stops_iff_withNot :
    isOr withNot = false ∧
      ((∃ fuel result, trueSplit fuel withNot = some result) ↔ isOr withNot = false) :=
  ⟨rfl, trueSplit_stops_iff withNot_tree⟩

/-- `r.a IS NULL OR r.a = 1`, a single comparison with its check -/
def weakenedComparison : Node Int :=
  .boolExpr .orExpr [.nullTest .isNull (.var ⟨1, 1, 0⟩),
    .opExpr 96 [.var ⟨1, 1, 0⟩, .const (some 1)]]

/-- A turn of the inner loop leaves the context as it is, and asks for another one. -/
theorem trueSplit_stops_fails :
    haveToSplit weakenedComparison = true ∧
    expressionTreeMutator splitRel weakenedComparison makeContextSplit =
      some (weakenedComparison, makeContextSplit) ∧
    makeContextSplit.haveToDuplicate = true ∧
    ¬∃ fuel result, trueSplit fuel weakenedComparison = some result := by
  refine ⟨rfl, rfl, rfl, ?_⟩
  rintro ⟨fuel, result, hrun⟩
  rw [trueSplit, trueSplitLoop_isOr ⟨weakenedComparison, by simp, rfl⟩] at hrun
  cases hrun

end Infed.Split
