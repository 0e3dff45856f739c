import Infed.Codd.FromSelects
import Infed.Codd.Quantified

/-! What the hook makes of IN.  The translation copies a query without NOT.  Then `my_modifier_self`
comes to the test expression of the sub-link and takes it for a constraint on the table of its
column: with its parameter, it becomes the WHERE of a sub-select in FROM, and the sub-link is left
without a test. -/

namespace Infed.Codd

variable {α : Type} {cat : Catalog}

/-! ### Queries without NOT -/

mutual

def notFree : Node α → Bool
  | .boolExpr .notExpr _ => false
  | .boolExpr _ args => notFreeList args
  | .subLink _ _ subselect => notFree subselect
  | .query _ _ _ quals => notFree quals
  | _ => true

def notFreeList : List (Node α) → Bool
  | [] => true
  | node :: nodes => notFree node && notFreeList nodes

end

/-- At positive polarity, what has no NOT in it is copied. -/
def Copies (p : Bool) (_ : List TrueVar) (a out : Node α) : Prop :=
  p = true → notFree a = true → out = a

theorem outs_eq_of_copies {p : Bool} {k : List TrueVar} {args outs : List (Node α)}
    (h : List.Forall₂ (Copies p k) args outs) (hp : p = true) (hargs : notFreeList args = true) :
    outs = args := by
  induction h with
  | nil => rfl
  | cons h _ ih =>
    rw [notFreeList, Bool.and_eq_true] at hargs
    rw [h hp hargs.1, ih hargs.2]

/-- A comparison is copied whatever is known and whatever checks are pending. -/
theorem mutates_test_copies {ops : List Oid} {os : Scopes} {a : Node α} (ha : Test cat ops os a) :
    pass.Mutates (fun _ _ => True) (fun _ => True) (fun _ => True) Copies cat os a := by
  obtain ⟨_, hargs, _⟩ := ha
  intro c rte hs _ _ _
  rw [pass.myMutator_test rfl hargs hs]
  split
  · exact ⟨_, _, _, rfl, trivial, fun _ _ => rfl⟩
  · cases hp : c.positive with
    | true => exact ⟨_, _, _, rfl, trivial, fun _ _ => rfl⟩
    | false => exact ⟨_, _, _, rfl, trivial, fun h => absurd h Bool.false_ne_true⟩

theorem mutates_copies {ops : List Oid} {os : Scopes} {a : Node α} (h : Quantified cat ops os a) :
    pass.Mutates (fun _ _ => True) (fun _ => True) (fun _ => True) Copies cat os a := by
  refine Pass.mutates_quantified (fun _ _ _ _ => trivial) (fun _ _ => mutates_test_copies)
    (fun _ _ _ _ => rfl) ?_ ?_ ?_ ?_ h
  · intro boolop p k known args outs hop houts hp hnot
    have hargs : notFreeList args = true := by
      cases boolop <;> first | exact absurd rfl hop | exact hnot
    rw [outs_eq_of_copies houts hp hargs]
  · intro p k a out _ _ hnot
    cases hnot
  · intro p k targetList relids quals out h hp hnot
    rw [h hp hnot]
  · intro p k opno args testout targetList relids quals out htest h hp hnot
    rw [htest hp rfl, h hp hnot]

/-- The translation returns a query without NOT as it is. -/
theorem translated_notFree {ops : List Oid} (targetList : List (Node α)) {relids : List Oid}
    {quals : Node α} (h : Quantified cat ops [relids] quals) (hnot : notFree quals = true) :
    translated cat (selectFrom targetList relids quals) =
      some (selectFrom targetList relids quals) := by
  obtain ⟨w, seen, hw, hmake⟩ := pass.starts_quantified targetList h
  obtain ⟨c, hc, start⟩ := hmake true
  obtain ⟨queries, bools, lengths, _, _⟩ := start.atStart
  rw [boolCount_selectFrom] at bools
  obtain ⟨out, r, ks, hrun, _, hout⟩ := Pass.myMutator_selectFrom (mutates_copies h)
    (Scope.resolves_root cat) ⟨queries, bools, lengths, fun _ _ => trivial, fun _ _ => trivial⟩
    trivial trivial
  rw [hout start.positive hnot] at hrun
  simp only [translated, myWalker, myMutator, hw, hc, hrun, Option.bind_eq_bind, Option.bind_some]

/-- On a query without AND and OR, over tables in which nothing is declared NOT NULL, all checks
are made. -/
theorem translated_nullable (hnullable : ∀ relid attno, cat.attnotnull relid attno = false)
    (targetList : List (Node α)) {relids : List Oid} {quals : Node α}
    (h : Quantified cat weakened [relids] quals) (hbools : boolCount quals = 0) :
    translated cat (selectFrom targetList relids quals) =
      some (selectFrom targetList relids (translateIn leaf true quals)) := by
  obtain ⟨w, seen, c, c', hw, hc, start, hrun⟩ :=
    Pass.run_translateIn (fun _ _ => mutates_test_translateIn) targetList h
  have hsame : emptied c = c := emptied_eq_self hnullable hw start
    ((boolCount_selectFrom targetList relids quals).trans hbools)
  rw [hsame] at hrun
  simp only [translated, myWalker, myMutator, hw, hc, hrun, Option.bind_eq_bind, Option.bind_some]

/-! ### The test expression -/

/-- The FROM entry that `rewrite_self` makes for the table of `v` from a constraint. -/
def constrained (targetList : List (Node α)) (relid : Oid) (v : Var) (constraint : Node α) :
    Node α :=
  .rangeTblEntry .rteSubquery relid (Self.createFromQuery (baseTable relid) constraint
    (targetEntries 1 ((targetList.filterMap entryColumn).filterMap (Self.columnOfOnly v.varno))))

section

variable {relid : Oid} {fromlist : List Nat} {quals quals' : Node α}
  {targetList rtable : List (Node α)}

/-- `my_modifier_self` takes the test expression, as it is at either polarity, out of the
sub-link. -/
theorem myModifierSelf_any (p : Bool) (opno : Oid) (v : Var) (i : Nat) :
    ∃ ctxSelf, mutate Self.myModifierSelf
        (.subLink .anySublink (leaf p (.opExpr opno [.var v, .param i]))
          (.query targetList rtable fromlist quals)) Self.makeContextOptimizerSelf =
        some (.subLink .anySublink .null (.query targetList rtable fromlist quals), ctxSelf) ∧
      ctxSelf.alreadyConstrainRel = [leaf p (.opExpr opno [.var v, .param i])] := by
  have hrun : (mutate Self.myModifierSelf
      (.subLink .anySublink (leaf p (.opExpr opno [.var v, .param i]))
        (.query targetList rtable fromlist quals)) Self.makeContextOptimizerSelf).map
          (fun r => (r.1, r.2.alreadyConstrainRel)) =
      some (.subLink .anySublink .null (.query targetList rtable fromlist quals),
        [leaf p (.opExpr opno [.var v, .param i])]) := by
    cases p <;> simp [leaf, nullCheck, isNull, mutate, mutateList, Self.myModifierSelf,
      Self.makeContextOptimizerSelf, Self.ContextOptimizerSelf.enterVar, Self.Table.differs,
      Self.ContextOptimizerSelf.constrain, Self.addConstrain, Self.makeTempContext]
  obtain ⟨r, hrun, hr⟩ := Option.map_eq_some_iff.mp hrun
  obtain ⟨hquals, hconstraints⟩ := Prod.mk.inj hr
  exact ⟨r.2, by rw [hrun, ← hquals], hconstraints⟩

theorem rewriteSelf_test {p : Bool} {opno : Oid} {v : Var} {i : Nat}
    (htarget : ∀ t ∈ targetList, SimpleEntry t)
    (hrte : listNth rtable ((v.varno : Int) - 1) = some (baseTable relid)) :
    Self.rewriteSelf targetList [leaf p (.opExpr opno [.var v, .param i])] rtable =
      some (rtable.set (v.varno - 1) (constrained targetList relid v
        (leaf p (.opExpr opno [.var { v with varno := 1 }, .param i])))) := by
  have htargets := mutateTargets_columns (Self.columnOfOnly v.varno) htarget 1
  cases p <;> simp [leaf, nullCheck, isNull, Self.rewriteSelf, walk, walkList, Self.initRel,
    Self.tableOf, Self.Table.varnoToAdd, mutate, mutateList, Self.modifRel, Self.modifTargetEntry,
    mutateTarget, htargets, hrte, constrained, Self.toSubquery, baseTable, Node.elems]

theorem mutatorDeep_test (p : Bool) (opno : Oid) (v : Var) (i : Nat) :
    mutate Self.mutatorDeep (leaf p (.opExpr opno [.var v, .param i]) : Node α) () =
      some (leaf p (.opExpr opno [.var v, .param i]), ()) := by
  cases p <;> rfl

/-- A query of whose WHERE the pass takes a test expression, after the pass on its sub-selects. -/
theorem optimizeSelfConstraintDeep_test {p : Bool} {opno : Oid} {v : Var} {i : Nat}
    {quals₁ : Node α} {ctxSelf : Self.ContextOptimizerSelf α}
    (htarget : ∀ t ∈ targetList, SimpleEntry t)
    (hrte : listNth rtable ((v.varno : Int) - 1) = some (baseTable relid))
    (hdeep : mutate Self.mutatorDeep quals () = some (quals₁, ()))
    (hrun : mutate Self.myModifierSelf quals₁ Self.makeContextOptimizerSelf =
      some (quals', ctxSelf))
    (hconstraints : ctxSelf.alreadyConstrainRel = [leaf p (.opExpr opno [.var v, .param i])]) :
    Self.optimizeSelfConstraintDeep (.query targetList rtable fromlist quals) =
      some (.query targetList (rtable.set (v.varno - 1) (constrained targetList relid v
        (leaf p (.opExpr opno [.var { v with varno := 1 }, .param i])))) fromlist quals') := by
  refine Self.optimizeSelfConstraintDeep_eq ?_
  rw [mutate, Self.mutatorDeep, hdeep]
  simp only [Option.bind_eq_bind, Option.bind_some, Self.optimizeSelfConstraint, hrun, hconstraints,
    rewriteSelf_test htarget hrte]

end

/-! ### The hook -/

theorem myModifierSelf_not {a out : Node α} {c c' : Self.ContextOptimizerSelf α}
    (h : mutate Self.myModifierSelf a c = some (out, c')) :
    mutate Self.myModifierSelf (.boolExpr .notExpr [a]) c =
      some (.boolExpr .notExpr [out], c') := by
  rw [mutate, Self.myModifierSelf]
  · simp only [mutateList, h, Option.bind_eq_bind, Option.bind_some]
  all_goals simp

theorem optimizeDeep_eq {fuel : Nat} {q quals quals₁ quals₂ : Node α}
    {targetList rtable : List (Node α)} {fromlist : List Nat}
    (hself : Self.optimizeSelfConstraintDeep q = some (.query targetList rtable fromlist quals))
    (hsplit : Split.mutatorSplitDeep fuel quals = some quals₁)
    (hexist : mutate Exist.Cells.mutatorExistDeep quals₁ () = some (quals₂, ())) :
    optimizeDeep fuel q = some (.query targetList rtable fromlist quals₂) := by
  simp only [optimizeDeep, hself, Split.optimizeSplitDeep, hsplit, Exist.Cells.optimizeExistDeep,
    hexist, Option.bind_eq_bind, Option.bind_some]

/-- What `mutator_deep` makes of a query is one. -/
theorem mutatorDeep_query {targetList rtable : List (Node α)} {fromlist : List Nat}
    {quals out : Node α}
    (h : mutate Self.mutatorDeep (.query targetList rtable fromlist quals) () = some (out, ())) :
    ∃ rtable quals, out = .query targetList rtable fromlist quals := by
  rw [mutate, Self.mutatorDeep] at h
  obtain ⟨r, hquals, h⟩ := Option.bind_eq_some_iff.mp h
  obtain ⟨r', hquals', hr⟩ := Option.bind_eq_some_iff.mp hquals
  cases hr
  obtain ⟨q, hq, h⟩ := Option.bind_eq_some_iff.mp h
  cases h
  obtain ⟨_, _, hq⟩ := Option.bind_eq_some_iff.mp hq
  obtain ⟨rtable', _, hq⟩ := Option.bind_eq_some_iff.mp hq
  cases hq
  exact ⟨_, _, rfl⟩

theorem inScope_of_quantified {ops : List Oid} {os : Scopes} {opno : Oid} {v : Var} {i : Nat}
    {targetList : List (Node α)} {relids : List Oid} {quals : Node α}
    (h : Quantified cat ops os
      (anyFrom (.opExpr opno [.var v, .param i]) targetList relids quals)) : v.InScope cat os := by
  generalize ha : anyFrom (.opExpr opno [.var v, .param i]) targetList relids quals = a at h
  cases h with
  | any htest _ _ =>
    rw [← (Node.subLink.inj ha).2.1] at htest
    obtain ⟨_, hargs, _⟩ := htest
    cases hargs (.var v) List.mem_cons_self with
    | operand h =>
      cases h with
      | column hv => exact hv
  | leaf h =>
    cases h
    cases ha
  | _ => cases ha

/-- The FROM entry of a column of a query that is in no other. -/
theorem listNth_baseTables {relids : List Oid} {v : Var} {relid : Oid} {attno : Nat}
    (h : columnOf [relids] v = some (relid, attno)) :
    listNth (relids.map baseTable) ((v.varno : Int) - 1) = some (baseTable (α := α) relid) := by
  simp only [columnOf, Option.bind_eq_bind, Option.bind_eq_some_iff] at h
  obtain ⟨relids', hlevel, relid', hrelid, h⟩ := h
  cases h
  obtain rfl : relids = relids' := by
    cases hsup : v.varlevelsup with
    | zero => simpa [hsup] using hlevel
    | succ n => simp [hsup] at hlevel
  rw [listNth_sub_one, List.getElem?_map, (entryAt_eq_some hrelid).2.2, Option.map_some]

/-- For every query `SELECT targetList FROM relids WHERE v op ANY (SELECT ...)` without NOT, the
translation returns the query as it is; and if the passes return on the sub-select, the hook returns
it with the test expression in FROM. -/
theorem hook_in (cat : Catalog) (fuel : Nat) (ops : List Oid) (targetList : List (Node α))
    (relids : List Oid) (opno : Oid) (v : Var) (i : Nat) (targetList' : List (Node α))
    (relids' : List Oid) (quals' sub sub' : Node α) (htarget : ∀ t ∈ targetList, SimpleEntry t)
    (h : Quantified cat ops [relids]
      (anyFrom (.opExpr opno [.var v, .param i]) targetList' relids' quals'))
    (hnot : notFree quals' = true)
    (hself : mutate Self.mutatorDeep (selectFrom targetList' relids' quals') () = some (sub, ()))
    (hexist : mutate Exist.Cells.mutatorExistDeep sub () = some (sub', ())) :
    ∃ relid, columnOf [relids] v = some (relid, v.varattno) ∧
      translated cat (selectFrom targetList relids
          (anyFrom (.opExpr opno [.var v, .param i]) targetList' relids' quals')) =
        some (selectFrom targetList relids
          (anyFrom (.opExpr opno [.var v, .param i]) targetList' relids' quals')) ∧
      myPostParseAnalyseHook cat fuel (selectFrom targetList relids
        (anyFrom (.opExpr opno [.var v, .param i]) targetList' relids' quals')) =
      some (.query targetList
        ((relids.map baseTable).set (v.varno - 1) (constrained targetList relid v
          (.opExpr opno [.var { v with varno := 1 }, .param i])))
        (List.range' 1 relids.length) (.subLink .anySublink .null sub')) := by
  have htranslated := translated_notFree targetList h
    (by simpa [anyFrom, selectFrom, notFree] using hnot)
  obtain ⟨relid, hcolumn, _⟩ := inScope_of_quantified h
  have hrte := listNth_baseTables (α := α) hcolumn
  refine ⟨relid, hcolumn, htranslated, ?_⟩
  obtain ⟨rtable₁, quals₁, rfl⟩ := mutatorDeep_query hself
  obtain ⟨ctxSelf, hrun, hconstraints⟩ := myModifierSelf_any true opno v i
  have hlink := Self.atQueries_mutatorDeep.subLink .anySublink (mutatorDeep_test true opno v i)
    hself
  rw [hook_eq_translated, htranslated]
  exact optimizeDeep_eq (optimizeSelfConstraintDeep_test htarget hrte hlink hrun hconstraints) rfl
    (Exist.Cells.atQueries_mutatorExistDeep.subLink .anySublink rfl hexist)

/-- `SELECT r.a FROM r WHERE r.a IN (SELECT s.a FROM s)` becomes `SELECT x.a FROM (SELECT r.a FROM r
WHERE r.a = $1) x` with a sub-link that has no test. -/
theorem hook_in_table :
    ∃ sub, myPostParseAnalyseHook (Catalog.nullable 1) 1
        (selectFrom [.targetEntry (.var ⟨1, 1, 0⟩) 1] [1] (inTable ⟨1, 1, 0⟩ 2)) =
      some (.query [.targetEntry (.var ⟨1, 1, 0⟩) 1]
        [.rangeTblEntry .rteSubquery 1 (.query [.targetEntry (.var ⟨1, 1, 0⟩) 1] [baseTable 1] [1]
          (.opExpr 98 [.var ⟨1, 1, 0⟩, .param 1]))]
        [1] (.subLink .anySublink .null sub)) := by
  obtain ⟨relid, hcolumn, _, hhook⟩ := hook_in (Catalog.nullable 1) 1 weakened
    [.targetEntry (.var ⟨1, 1, 0⟩) 1] [1] 98 ⟨1, 1, 0⟩ 1 [.targetEntry (.var ⟨1, 1, 0⟩) 1] [2] .null
    (selectFrom [.targetEntry (.var ⟨1, 1, 0⟩) 1] [2] .null) _ (by simpa using .column)
    (inTable_quantified 2 1 []) rfl rfl rfl
  cases hcolumn
  exact ⟨_, hhook⟩

end Infed.Codd
