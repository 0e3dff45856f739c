import Infed.Codd.Hook
import Infed.Flatten
import Infed.References
import Infed.Traverse

/-! The hook on queries with sub-selects in FROM.  The translation sees the base tables below a
sub-select as tables of the query around it, at the places where their flat order puts them, and it
returns every FROM as it was.  What stands in the WHERE of a sub-select in FROM is therefore not
translated: in `SELECT * FROM (q) x` the query `q` returns the rows that it returns without the
hook. -/

namespace Infed

variable {α : Type} {cat : Catalog} {I : Interp α} {D : Database α}

namespace Codd

/-! ### The translation -/

/-- What the translation makes of a query, before the passes. -/
def translated (cat : Catalog) (query : Node α) : Option (Node α) := do
  let ctx ← myWalker cat query makeContextWalkerSetConstraint
  let ctxM ← makeContextModifier true ctx
  let (query, _) ← myMutator query ctxM
  some query

theorem hook_eq_translated (cat : Catalog) (fuel : Nat) (query : Node α) :
    myPostParseAnalyseHook cat fuel query = (translated cat query).bind (optimizeDeep fuel) := by
  simp only [myPostParseAnalyseHook, translated, Option.bind_eq_bind, Option.bind_assoc,
    Option.bind_some]

theorem flatChecks : (pass : Pass α).FlatChecks := by
  intro positive known v k hk
  cases known with
  | true => cases hk
  | false =>
    rw [List.mem_singleton.mp hk]
    rfl

theorem flatPending_make {w : ContextWalkerSetConstraint} {c : ContextModifier α}
    (hc : makeContextModifier true w = some c) : FlatPending c := by
  simp only [makeContextModifier, Option.bind_eq_bind, Option.bind_eq_some_iff] at hc
  obtain ⟨_, _, _, _, _, _, hc⟩ := hc
  cases hc
  exact fun k hk => by cases hk

theorem myMutator_query {targetList rtable : List (Node α)} {fromlist : List Nat}
    {quals q' : Node α} {c c' : ContextModifier α}
    (hrun : myMutator (.query targetList rtable fromlist quals) c = some (q', c')) :
    ∃ quals', q' = .query targetList rtable fromlist quals' := by
  rw [myMutator, Pass.myMutator] at hrun
  simp only [mutate, Pass.myMutatorStep, Option.bind_eq_bind, Option.bind_eq_some_iff] at hrun
  obtain ⟨_, _, ⟨out, c2⟩, ⟨⟨quals', c1⟩, _, hout⟩, hres⟩ := hrun
  cases hout
  cases hres
  exact ⟨quals', rfl⟩

/-- The translation of a query is that of the query with the base tables of each FROM, in their flat
order, in its place; and the FROM of each query in it that is no operand of a comparison is returned
as it was, with its sub-selects. -/
theorem translated_flatFrom (cat : Catalog) (targetList rtable : List (Node α))
    (fromlist : List Nat) (quals : Node α) :
    translated cat (flatFrom (.query targetList rtable fromlist quals)) =
        (translated cat (.query targetList rtable fromlist quals)).map flatFrom ∧
      ∀ q', translated cat (.query targetList rtable fromlist quals) = some q' →
        ∀ path target entries refs cond,
          through path (.query targetList rtable fromlist quals) = true →
          nodeAt path (.query targetList rtable fromlist quals) =
            some (.query target entries refs cond) →
          ∃ cond', nodeAt path q' = some (.query target entries refs cond') := by
  constructor
  · rw [translated, translated, myWalker, Pass.myWalker_flatFrom rfl]
    cases pass.myWalker cat (.query targetList rtable fromlist quals)
        makeContextWalkerSetConstraint with
    | none => rfl
    | some w =>
      cases hc : makeContextModifier (α := α) true w with
      | none => simp [hc]
      | some c =>
        obtain ⟨hflat, _⟩ := pass.flattens_myMutator flatChecks
          (.query targetList rtable fromlist quals) c (flatPending_make hc)
        simp only [Option.bind_eq_bind, Option.bind_some, hc, myMutator, hflat]
        cases pass.myMutator (.query targetList rtable fromlist quals) c <;> rfl
  · intro q' hq' path target entries refs cond hthrough hpath
    simp only [translated, Option.bind_eq_bind, Option.bind_eq_some_iff] at hq'
    obtain ⟨_, _, _, _, ⟨q, _⟩, hrun, hq'⟩ := hq'
    cases hq'
    obtain ⟨m, out, m', _, hout, hnode⟩ := Pass.myMutator_at hrun hpath hthrough
    obtain ⟨cond', rfl⟩ := myMutator_query hout
    exact ⟨cond', hnode⟩

/-- `SELECT FROM (SELECT FROM s, t) x, r WHERE NOT EXISTS (SELECT FROM u WHERE u.a = r.a)`. -/
def besidePair : Node Int :=
  .query [] [.rangeTblEntry .rteSubquery 0 (selectFrom [] [2, 3] .null), baseTable 1] [1, 2]
    (.boolExpr .notExpr [existsFrom [] [4] (.opExpr 98 [.var ⟨1, 1, 0⟩, .var ⟨2, 1, 1⟩])])

/-- A row with a NULL in `r`, and a 1 in each of the other tables. -/
def nullInR : Database Int := fun relid => if relid = 1 then [[none]] else [[some 1]]

/-- With `t.a` declared NOT NULL, the column of `r`, the second entry of FROM, is taken for that of
`t`, the second one of the flat FROM, and not checked: the row is returned although the NULL may
stand for 1. -/
theorem translated_flatFrom_besidePair :
    (∃ q', translated ⟨fun _ => 1, fun relid _ => relid == 3⟩ besidePair = some q' ∧
      q'.rtable = besidePair.rtable ∧
      translated ⟨fun _ => 1, fun relid _ => relid == 3⟩ (flatFrom besidePair) =
        some (flatFrom q') ∧
      evalQuery intInterp nullInR q' Env.empty = [[]]) ∧
    evalQuery intInterp (Valuation.apply (fun _ _ _ => 1) nullInR) besidePair Env.empty = [] := by
  have hrows : ((translated ⟨fun _ => 1, fun relid _ => relid == 3⟩ besidePair).map fun q' =>
      evalQuery intInterp nullInR q' Env.empty) = some [[]] := by decide +kernel
  obtain ⟨q', hq', hrows⟩ := Option.map_eq_some_iff.mp hrows
  obtain ⟨hflat, hkeeps⟩ := translated_flatFrom ⟨fun _ => 1, fun relid _ => relid == 3⟩ []
    besidePair.rtable [1, 2] besidePair.quals
  obtain ⟨quals', hroot⟩ := hkeeps q' hq' [] _ _ _ _ rfl rfl
  obtain rfl : q' = _ := Option.some.inj hroot
  refine ⟨⟨_, hq', rfl, hflat.trans (congrArg (Option.map flatFrom) hq'), hrows⟩, ?_⟩
  decide +kernel

/-! ### A query in FROM -/

/-- `SELECT * FROM (q) x`, for a query with `n` columns. -/
def selectAllFrom (n : Nat) (q : Node α) : Node α :=
  .query (targetEntries 1 ((List.range' 1 n).map fun attno => ⟨1, attno, 0⟩))
    [.rangeTblEntry .rteSubquery 0 q] [1] .null

section

variable {targetList rtable : List (Node α)} {fromlist : List Nat} {quals : Node α}

theorem length_of_mem_evalQuery {ρ : Env α} {r : Row α}
    (hr : r ∈ evalQuery I D (.query targetList rtable fromlist quals) ρ) :
    r.length = targetList.length := by
  rw [evalQuery] at hr
  obtain ⟨z, _, rfl⟩ := List.mem_map.mp hr
  rw [evalScalars_eq_map, List.length_map]

/-- A level without rows is as good as none. -/
theorem agreeOn_push_empty (vs : List Var) :
    (Env.empty.push []).AgreeOn vs (Env.empty (α := α)) := by
  refine ⟨fun v _ => ?_, rfl⟩
  obtain ⟨varno, varattno, varlevelsup⟩ := v
  cases varlevelsup <;> rfl

/-- All rows of the sub-select, as they are. -/
theorem evalQuery_selectAllFrom :
    evalQuery I D (selectAllFrom targetList.length (.query targetList rtable fromlist quals))
        Env.empty =
      evalQuery I D (.query targetList rtable fromlist quals) Env.empty := by
  rw [selectAllFrom, evalQuery, evalRtable, evalRtable, evalRte,
    evalQuery_agree _ (agreeOn_push_empty _), combinations_one]
  simp only [evalCond, decide_true, List.filter_true, List.map_map, Self.evalScalars_targetEntries]
  refine (List.map_congr_left fun r hr => ?_).trans (List.map_id _)
  have hself := Self.map_column_self r Env.empty
  rw [length_of_mem_evalQuery hr, List.map_map] at hself
  exact hself

theorem translated_selectAllFrom (cat : Catalog) {relids : List Oid}
    (hflat : flatRtable rtable = relids.map baseTable) (n : Nat) :
    translated cat (selectAllFrom n (.query targetList rtable fromlist quals)) =
      some (selectAllFrom n (.query targetList rtable fromlist quals)) := by
  have hquery : flatFrom (selectAllFrom n (.query targetList rtable fromlist quals)) =
      selectFrom (targetEntries 1 ((List.range' 1 n).map fun attno => ⟨1, attno, 0⟩)) relids
        .null := by
    simp only [selectAllFrom, flatFrom, flatRtable, flatEntry, hflat, List.append_nil, selectFrom,
      List.length_map]
  have hnull : Cond (Atom cat) True [relids] (.null : Node α) := .null
  obtain ⟨w, hw, hmake⟩ := pass.prepares
    (targetEntries 1 ((List.range' 1 n).map fun attno => ⟨1, attno, 0⟩)) hnull
  obtain ⟨c, hc, hprepared⟩ := hmake true
  rw [← hquery, Pass.myWalker_flatFrom rfl] at hw
  obtain ⟨c0, hent⟩ : ∃ c0, c.enterQuery = some c0 := by
    rw [ContextModifier.enterQuery, hprepared.trueVars, hprepared.whereIAmQuerry,
      queryScopes_selectFrom]
    exact ⟨_, rfl⟩
  have hrun : myMutator (selectAllFrom n (.query targetList rtable fromlist quals)) c =
      some (selectAllFrom n (.query targetList rtable fromlist quals),
        { c0 with currentTrueVar := c.currentTrueVar }) := by
    simp [selectAllFrom, myMutator, Pass.myMutator, mutate, Pass.myMutatorStep, hent]
  simp [translated, myWalker, hw, hc, hrun]

end

/-- A query in FROM is not translated: the hook returns `SELECT * FROM (q) x` as it is, and its rows
are those of `q` itself. -/
theorem hook_selectAllFrom (cat : Catalog) (I : Interp α) (fuel : Nat)
    (targetList rtable : List (Node α)) (fromlist : List Nat) (quals : Node α) (relids : List Oid)
    (hflat : flatRtable rtable = relids.map baseTable) :
    myPostParseAnalyseHook cat (fuel + 1)
        (selectAllFrom targetList.length (.query targetList rtable fromlist quals)) =
      some (selectAllFrom targetList.length (.query targetList rtable fromlist quals)) ∧
    ∀ D, evalQuery I D
        (selectAllFrom targetList.length (.query targetList rtable fromlist quals)) Env.empty =
      evalQuery I D (.query targetList rtable fromlist quals) Env.empty := by
  refine ⟨?_, fun D => evalQuery_selectAllFrom⟩
  rw [hook_eq_translated, translated_selectAllFrom cat hflat]
  rfl

/-- `NOT EXISTS (SELECT FROM s WHERE s.a = r.a)`. -/
def absent : Node Int := .boolExpr .notExpr [existsFrom [] [2] (joined 98)]

/-- `r` with the row 1, and `s` with a NULL. -/
def oneAndNull : Database Int := fun relid => if relid = 1 then [[some 1]] else [[none]]

/-- Of `SELECT * FROM (SELECT r.a FROM r WHERE NOT EXISTS (SELECT FROM s WHERE s.a = r.a)) x` the
hook returns a row that is no certain answer: it is lost where the NULL stands for 1. -/
theorem hook_selectAllFrom_absent :
    myPostParseAnalyseHook (Catalog.nullable 1) 1
        (selectAllFrom 1 (selectFrom [.targetEntry (.var ⟨1, 1, 0⟩) 1] [1] absent)) =
      some (selectAllFrom 1 (selectFrom [.targetEntry (.var ⟨1, 1, 0⟩) 1] [1] absent)) ∧
    evalQuery intInterp oneAndNull
        (selectAllFrom 1 (selectFrom [.targetEntry (.var ⟨1, 1, 0⟩) 1] [1] absent)) Env.empty =
      [[some 1]] ∧
    evalQuery intInterp (Valuation.apply (fun _ _ _ => 1) oneAndNull)
        (selectAllFrom 1 (selectFrom [.targetEntry (.var ⟨1, 1, 0⟩) 1] [1] absent)) Env.empty =
      [] := by
  obtain ⟨hrun, hrows⟩ := hook_selectAllFrom (Catalog.nullable 1) intInterp 0
    [.targetEntry (.var ⟨1, 1, 0⟩) 1] [baseTable 1] [1] absent [1] rfl
  refine ⟨hrun, (hrows _).trans ?_, (hrows _).trans ?_⟩ <;> decide

end Codd

end Infed
