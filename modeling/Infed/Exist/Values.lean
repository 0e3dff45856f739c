import Infed.Exist.Deep

/-! Sub-selects whose rows matter.  `optimize_exist_deep` keeps the rows of a sub-select that is
used as a value or a list if no component is taken out of it and the steps before keep them: the
same pass on its own sub-selects, and `optimize_self_constraint`.  Of a sub-select under EXISTS it
has to keep only whether there are rows, and tables that no comparison mentions may go. -/

namespace Infed.Exist.Cells

variable {α : Type}

/-! ### Sub-links -/

mutual

/-- The sub-links of a condition, outside of its sub-selects: kind and sub-select. -/
def subLinks : Node α → List (SubLinkType × Node α)
  | .opExpr _ args => subLinksList args
  | .boolExpr _ args => subLinksList args
  | .nullTest _ arg => subLinks arg
  | .subLink kind testexpr subselect => subLinks testexpr ++ [(kind, subselect)]
  | .targetEntry expr _ => subLinks expr
  | .list elems => subLinksList elems
  | _ => []

def subLinksList : List (Node α) → List (SubLinkType × Node α)
  | [] => []
  | node :: nodes => subLinks node ++ subLinksList nodes

end

mutual

/-- Queries stand in the sub-links of the condition only, as in every WHERE. -/
def queriesLinked : Node α → Bool
  | .opExpr _ args | .boolExpr _ args | .list args => queriesLinkedList args
  | .nullTest _ arg | .targetEntry arg _ => queriesLinked arg
  | .subLink _ testexpr (.query _ _ _ _) => queriesLinked testexpr
  | .null | .var _ | .const _ | .param _ => true
  | _ => false

def queriesLinkedList : List (Node α) → Bool
  | [] => true
  | node :: nodes => queriesLinked node && queriesLinkedList nodes

end

/-- The sub-link is the same, over the sub-select rewritten. -/
def Rewritten (l l' : SubLinkType × Node α) : Prop := l'.1 = l.1 ∧ rewritten l.2 = some l'.2

theorem isQuery_rewritten {targetList rtable : List (Node α)} {fromlist : List Nat}
    {quals s' : Node α} (h : rewritten (.query targetList rtable fromlist quals) = some s') :
    IsQuery s' := by
  rw [rewritten_query] at h
  obtain ⟨nq, hprepared, h⟩ := Option.bind_eq_some_iff.mp h
  obtain ⟨list, hlist, hloop⟩ := Option.bind_eq_some_iff.mp h
  obtain ⟨quals1, _, hself⟩ := Option.bind_eq_some_iff.mp hprepared
  exact isQuery_rewriteLoop (connexes_ne_nil hlist) hloop (optimizeSelfConstraint_from hself).1

mutual

/-- `mutator_exist_deep` on a condition. -/
theorem subLinks_mutate : ∀ (a : Node α) {a' : Node α} {u u' : Unit},
    mutate mutatorExistDeep a u = some (a', u') →
      List.Forall₂ Rewritten (subLinks a) (subLinks a')
  | .opExpr _ args, _, _, _, h | .boolExpr _ args, _, _, _, h | .list args, _, _, _, h => by
    rw [mutate] at h
    obtain ⟨⟨args', _⟩, hargs, h⟩ := Option.bind_eq_some_iff.mp h
    cases h
    exact subLinksList_mutate args hargs
  | .nullTest _ arg, _, _, _, h | .targetEntry arg _, _, _, _, h => by
    rw [mutate] at h
    obtain ⟨⟨arg', _⟩, harg, h⟩ := Option.bind_eq_some_iff.mp h
    cases h
    rw [subLinks, subLinks]
    exact subLinks_mutate arg harg
  | .subLink _ testexpr subselect, _, _, _, h => by
    rw [mutate] at h
    obtain ⟨⟨testexpr', _⟩, htest, h⟩ := Option.bind_eq_some_iff.mp h
    obtain ⟨⟨subselect', _⟩, hsub, h⟩ := Option.bind_eq_some_iff.mp h
    cases h
    exact (List.rel_append (subLinks_mutate testexpr htest)
      (.cons ⟨rfl, rewritten_eq_some hsub⟩ .nil))
  | .null, _, _, _, h | .var _, _, _, _, h | .const _, _, _, _, h | .param _, _, _, _, h => by
    cases h
    exact .nil
  | .query _ _ _ _, _, _, _, h => by
    obtain ⟨_, _, _, _, rfl⟩ := isQuery_rewritten (rewritten_eq_some h)
    exact .nil
  | .rangeTblEntry _ _ _, _, _, _, h => by
    cases h

theorem subLinksList_mutate : ∀ (nodes : List (Node α)) {nodes' : List (Node α)} {u u' : Unit},
    mutateList mutatorExistDeep nodes u = some (nodes', u') →
      List.Forall₂ Rewritten (subLinksList nodes) (subLinksList nodes')
  | [], _, _, _, h => by
    cases h
    exact .nil
  | node :: nodes, _, _, _, h => by
    obtain ⟨⟨node', _⟩, hnode, h⟩ := Option.bind_eq_some_iff.mp h
    obtain ⟨⟨nodes', _⟩, hnodes, h⟩ := Option.bind_eq_some_iff.mp h
    cases h
    exact List.rel_append (subLinks_mutate node hnode) (subLinksList_mutate nodes hnodes)

end

/-! ### What a rewritten sub-select has to keep -/

/-- The sub-select is rewritten, and keeps its rows, or under EXISTS whether it has any. -/
def KeepsUse (l : SubLinkType × Node α) : Prop :=
  ∃ s', mutate mutatorExistDeep l.2 () = some (s', ()) ∧ ∀ (I : Interp α) D ρ,
    (l.1 ≠ .existsSublink → evalQuery I D s' ρ = evalQuery I D l.2 ρ) ∧
    (evalQuery I D s' ρ).isEmpty = (evalQuery I D l.2 ρ).isEmpty

/-- The condition is rewritten, and keeps its value. -/
def KeepsValue (a : Node α) : Prop :=
  ∃ a', mutate mutatorExistDeep a () = some (a', ()) ∧ ∀ (I : Interp α) D ρ,
    evalScalar I D a' ρ = evalScalar I D a ρ ∧ evalCond I D a' ρ = evalCond I D a ρ

theorem keepsValue_leaf {a : Node α} (h : mutate mutatorExistDeep a () = some (a, ())) :
    KeepsValue a := ⟨a, h, fun _ _ _ => ⟨rfl, rfl⟩⟩

mutual

/-- If each sub-link keeps what it is used for, the condition keeps its value. -/
theorem keepsValue : ∀ (a : Node α), queriesLinked a = true → (∀ l ∈ subLinks a, KeepsUse l) →
    KeepsValue a
  | .null, _, _ | .var _, _, _ | .const _, _, _ | .param _, _, _ => keepsValue_leaf rfl
  | .opExpr opno args, hq, h => by
    obtain ⟨args', hrun, hvalue⟩ := keepsValues args hq h
    refine ⟨.opExpr opno args', by simp [mutate, mutatorExistDeep, hrun], fun I D ρ => ?_⟩
    simp only [evalScalar, evalCond, (hvalue I D ρ).1, and_self]
  | .boolExpr boolop args, hq, h => by
    obtain ⟨args', hrun, hvalue⟩ := keepsValues args hq h
    refine ⟨.boolExpr boolop args', by simp [mutate, mutatorExistDeep, hrun], fun I D ρ => ?_⟩
    cases boolop <;> simp only [evalScalar, evalCond, (hvalue I D ρ).2, and_self]
  | .list elems, hq, h => by
    obtain ⟨elems', hrun, hvalue⟩ := keepsValues elems hq h
    refine ⟨.list elems', by simp [mutate, mutatorExistDeep, hrun], fun I D ρ => ?_⟩
    simp only [evalScalar, evalCond, (hvalue I D ρ).2, and_self]
  | .nullTest test arg, hq, h => by
    obtain ⟨arg', hrun, hvalue⟩ := keepsValue arg hq h
    refine ⟨.nullTest test arg', by simp [mutate, mutatorExistDeep, hrun], fun I D ρ => ?_⟩
    cases test <;> simp only [evalScalar, evalCond, (hvalue I D ρ).1, and_self]
  | .targetEntry expr resno, hq, h => by
    obtain ⟨expr', hrun, hvalue⟩ := keepsValue expr hq h
    refine ⟨.targetEntry expr' resno, by simp [mutate, mutatorExistDeep, hrun], fun I D ρ => ?_⟩
    simp only [evalScalar, evalCond, (hvalue I D ρ).1, and_self]
  | .subLink kind test (.query targetList rtable fromlist quals), hq, h => by
    obtain ⟨htest, huse⟩ := List.forall_mem_append.mp h
    obtain ⟨test', hrun, hvalue⟩ := keepsValue test hq htest
    obtain ⟨s', hsub, hrows⟩ := huse _ List.mem_cons_self
    refine ⟨.subLink kind test' s', ?_, fun I D ρ => ?_⟩
    · change (mutate mutatorExistDeep test ()).bind _ = _
      rw [hrun]
      change (mutate mutatorExistDeep (.query targetList rtable fromlist quals) ()).bind _ = _
      rw [show mutate mutatorExistDeep (.query targetList rtable fromlist quals) () = _ from hsub]
      rfl
    have hcond := fun ρ => (hvalue I D ρ).2
    cases kind with
    | existsSublink => simp only [evalScalar, evalCond, (hrows I D ρ).2, and_self]
    | allSublink | anySublink | exprSublink =>
      simp only [evalScalar, evalCond, (hrows I D ρ).1 (by simp), hcond, and_self]

theorem keepsValues : ∀ (nodes : List (Node α)), queriesLinkedList nodes = true →
    (∀ l ∈ subLinksList nodes, KeepsUse l) → ∃ nodes',
      mutateList mutatorExistDeep nodes () = some (nodes', ()) ∧ ∀ (I : Interp α) D ρ,
        evalScalars I D nodes' ρ = evalScalars I D nodes ρ ∧
        evalConds I D nodes' ρ = evalConds I D nodes ρ
  | [], _, _ => ⟨[], rfl, fun _ _ _ => ⟨rfl, rfl⟩⟩
  | node :: nodes, hq, h => by
    rw [queriesLinkedList, Bool.and_eq_true] at hq
    obtain ⟨hnode, hnodes⟩ := List.forall_mem_append.mp h
    obtain ⟨node', hrun, hvalue⟩ := keepsValue node hq.1 hnode
    obtain ⟨nodes', hruns, hvalues⟩ := keepsValues nodes hq.2 hnodes
    refine ⟨node' :: nodes', mutateList_cons hrun hruns, fun I D ρ => ?_⟩
    simp only [evalScalars, evalConds, (hvalue I D ρ).1, (hvalue I D ρ).2, (hvalues I D ρ).1,
      (hvalues I D ρ).2, and_self]

end

/-! ### Sub-selects that keep their rows -/

/-- The sub-selects inside are spared, `optimize_self_constraint` keeps the rows, and no component
is taken out; or under EXISTS only tables that no comparison mentions are, one by one, and some
table stays. -/
inductive Spared : SubLinkType × Node α → Prop where
  | mk {kind targetList rtable quals quals1 nq ks} :
    queriesLinked quals = true → (∀ l ∈ subLinks quals, Spared l) →
    rewritten quals = some quals1 → Self.KeepsRows targetList rtable quals1 →
    Self.optimizeSelfConstraint
      (.query targetList rtable (List.range' 1 rtable.length) quals1) = some nq →
    connexes nq = some (ks.map ([·])) →
    ks = [] ∨ kind = .existsSublink ∧ Ready ks nq.targetList nq.rtable nq.quals →
    Spared (kind, .query targetList rtable (List.range' 1 rtable.length) quals)

theorem Spared.keepsUse {l : SubLinkType × Node α} (h : Spared l) : KeepsUse l := by
  induction h with
  | @mk kind targetList rtable quals quals1 nq ks hlinked _ hquals hself hnq hcomponents hks ih =>
    obtain ⟨quals', hrun, hvalue⟩ := keepsValue quals hlinked ih
    obtain rfl : quals' = quals1 := Option.some.inj ((rewritten_eq_some hrun).symm.trans hquals)
    obtain ⟨rtable', quals'', hlength, hself', hrows⟩ := hself.run
    obtain rfl := Option.some.inj (hself'.symm.trans hnq)
    have hsame : ∀ (I : Interp α) D ρ,
        evalQuery I D (.query targetList rtable' (List.range' 1 rtable.length) quals'') ρ =
          evalQuery I D (.query targetList rtable (List.range' 1 rtable.length) quals) ρ := by
      intro I D ρ
      rw [hrows]
      simp only [evalQuery, (hvalue I D _).2]
    obtain ⟨s', hloop, huse⟩ : ∃ s', rewriteComponents (ks.map ([·]))
          (.query targetList rtable' (List.range' 1 rtable.length) quals'') = some s' ∧
        ∀ (I : Interp α) D ρ, (kind ≠ .existsSublink → evalQuery I D s' ρ = evalQuery I D
            (.query targetList rtable' (List.range' 1 rtable.length) quals'') ρ) ∧
          (evalQuery I D s' ρ ≠ [] ↔ evalQuery I D
            (.query targetList rtable' (List.range' 1 rtable.length) quals'') ρ ≠ []) := by
      rcases hks with rfl | ⟨rfl, hready⟩
      · exact ⟨_, rfl, fun _ _ _ => ⟨fun _ => rfl, Iff.rfl⟩⟩
      · obtain ⟨s', hloop, hempty⟩ := rewriteLoop_ready hready
        rw [← hlength, rewriteComponents, List.length_map]
        exact ⟨s', hloop, fun I D ρ => ⟨fun hkind => absurd rfl hkind, hempty I D ρ⟩⟩
    refine ⟨s', ?_, fun I D ρ => ⟨fun hkind => ?_, ?_⟩⟩
    · simp only [mutate, mutatorExistDeep, hrun, optimizeExist, hnq, hcomponents, hloop,
        Option.bind_eq_bind, Option.bind_some]
    · rw [(huse I D ρ).1 hkind, hsame]
    · have hempty := (huse I D ρ).2
      rw [hsame] at hempty
      rw [Bool.eq_iff_iff, List.isEmpty_iff, List.isEmpty_iff]
      exact not_iff_not.mp hempty

/-- The sub-selects that are used as a value or a list keep their rows. -/
def ValuesKept (I : Interp α) (links links' : List (SubLinkType × Node α)) : Prop :=
  List.Forall₂ (fun l l' => l.1 ≠ .existsSublink → SameRows I l.2 l'.2) links links'

theorem valuesKept_of_keepsUse {links links' : List (SubLinkType × Node α)}
    (h : List.Forall₂ Rewritten links links') (hkept : ∀ l ∈ links, KeepsUse l) (I : Interp α) :
    ValuesKept I links links' := by
  induction h with
  | nil => exact .nil
  | @cons l l' links links' hhead _ ih =>
    obtain ⟨hl, hlinks⟩ := List.forall_mem_cons.mp hkept
    obtain ⟨s', hrun, hrows⟩ := hl
    obtain rfl : s' = l'.2 := Option.some.inj ((rewritten_eq_some hrun).symm.trans hhead.2)
    exact .cons (fun hkind D ρ => .of_eq ((hrows I D ρ).1 hkind)) (ih hlinks)

/-- No component is taken out of the sub-select. -/
def Untaken (s : Node α) : Prop := ∃ nq, prepared s = some nq ∧ connexes nq = some []

theorem untaken_of_sameRows {I : Interp α} {s s' : Node α} (hs : Productive I s)
    (hrun : rewritten s = some s') (hrows : SameRows I s s') : Untaken s := by
  obtain ⟨D, ρ, hrow⟩ := hs.row
  obtain ⟨targetList, rtable, fromlist, quals, rfl⟩ := isQuery_of_row hrow
  rw [rewritten_query] at hrun
  obtain ⟨nq, hprepared, hrun⟩ := Option.bind_eq_some_iff.mp hrun
  obtain ⟨list, hlist, hloop⟩ := Option.bind_eq_some_iff.mp hrun
  obtain ⟨quals1, _, hself⟩ := Option.bind_eq_some_iff.mp hprepared
  obtain ⟨_, hfrom, hweights⟩ := optimizeSelfConstraint_from hself
  obtain rfl := components_eq_nil hs hfrom hweights (connexes_ne_nil hlist) hloop hrows
  exact ⟨nq, hprepared, hlist⟩

theorem untaken_of_valuesKept {I : Interp α} {links links' : List (SubLinkType × Node α)}
    (h : List.Forall₂ Rewritten links links') (hrows : ValuesKept I links links') :
    ∀ l ∈ links, l.1 ≠ .existsSublink → Productive I l.2 → Untaken l.2 := by
  induction h with
  | nil => exact fun _ hmem => absurd hmem List.not_mem_nil
  | cons hhead _ ih =>
    obtain ⟨hrow, hrows⟩ := List.forall₂_cons.mp hrows
    refine List.forall_mem_cons.mpr ⟨fun hkind hs => ?_, ih hrows⟩
    exact untaken_of_sameRows hs hhead.2 (hrow hkind)

theorem rewritten_linking {n : Nat} {a : Node α} (h : a = .null ∨ Linking n a) (u : Unit) :
    mutate mutatorExistDeep a u = some (a, u) := by
  rcases h with rfl | ⟨_, _, _, _⟩ <;> rfl

theorem subLinks_linking {n : Nat} {a : Node α} (h : a = .null ∨ Linking n a) :
    queriesLinked a = true ∧ subLinks a = [] := by
  rcases h with rfl | ⟨_, _, _, _⟩ <;> exact ⟨rfl, rfl⟩

theorem mutate_where {n : Nat} {quals : Node α} (h : Where n quals) :
    mutate mutatorExistDeep quals () = some (quals, ()) := by
  cases h with
  | none => rfl
  | one ha => exact rewritten_linking (.inr ha) ()
  | @and args hargs =>
    have hlist : mutateList mutatorExistDeep args () = some (args, ()) :=
      mutateList_fixed fun a ha => rewritten_linking (hargs a ha) ()
    simp [mutate, mutatorExistDeep, hlist]

theorem subLinks_and {args : List (Node α)}
    (h : ∀ a ∈ args, queriesLinked a = true ∧ subLinks a = []) :
    queriesLinked (.boolExpr .andExpr args) = true ∧ subLinks (.boolExpr .andExpr args) = [] := by
  rw [queriesLinked, subLinks]
  induction args with
  | nil => exact ⟨rfl, rfl⟩
  | cons a args ih =>
    rw [List.forall_mem_cons] at h
    rw [queriesLinkedList, subLinksList, h.1.1, h.1.2, (ih h.2).1, (ih h.2).2]
    exact ⟨rfl, rfl⟩

theorem subLinks_where {n : Nat} {quals : Node α} (h : Where n quals) :
    queriesLinked quals = true ∧ subLinks quals = [] := by
  cases h with
  | none => exact ⟨rfl, rfl⟩
  | one ha => exact subLinks_linking (.inr ha)
  | and hargs => exact subLinks_and fun a ha => subLinks_linking (hargs a ha)

/-- If all comparisons link two tables, or a table and an enclosing query, the steps before do
nothing, and all tables have to be linked with an enclosing query. -/
theorem spared_where {kind : SubLinkType} {targetList rtable : List (Node α)} {quals : Node α}
    (h : Where rtable.length quals)
    (hnone : connexes (.query targetList rtable (List.range' 1 rtable.length) quals) = some []) :
    Spared (kind, .query targetList rtable (List.range' 1 rtable.length) quals) := by
  obtain ⟨hlinked, hlinks⟩ := subLinks_where h
  obtain ⟨context, hquiet, hrel⟩ := myModifierSelf_where h
  have hempty : connexes (.query targetList rtable (List.range' 1 rtable.length) quals) =
      some (([] : List Nat).map ([·])) := hnone
  exact .mk hlinked (by simp [hlinks]) (rewritten_eq_some (mutate_where h)) (.idle hquiet hrel)
    (optimizeSelfConstraint_where h) hempty (.inl rfl)

/-- `SELECT s.a FROM s WHERE s.a = r.b`, inside a query over `r` -/
def correlatedValue : Node Int :=
  .query [.targetEntry (.var ⟨1, 1, 0⟩) 1] [baseTable 2] [1]
    (.opExpr 96 [.var ⟨1, 1, 0⟩, .var ⟨1, 2, 1⟩])

/-- `r.a IN (s)` -/
def inValues (s : Node Int) : Node Int :=
  .subLink .anySublink (.opExpr 96 [.var ⟨1, 1, 0⟩, .param 1]) s

/-- `SELECT r.a FROM r WHERE r.a > (SELECT s.a FROM s)` -/
def uncorrelatedValue : Node Int :=
  .query [.targetEntry (.var ⟨1, 1, 0⟩) 1] [baseTable 1] [1]
    (.opExpr 521 [.var ⟨1, 1, 0⟩, .subLink .exprSublink .null
      (.query [.targetEntry (.var ⟨1, 1, 0⟩) 1] [baseTable 2] [1] .null)])

end Infed.Exist.Cells
