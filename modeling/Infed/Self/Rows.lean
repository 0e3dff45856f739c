import Infed.Combinations
import Infed.Fragment
import Infed.Self.Pass

/-! What `rewrite_self` does to a FROM entry.  Each constraint is attached to one by the `varno` of
its first column, and a sub-select takes its place that returns the columns of the entry which the
select list of the query has.  So the entry has fewer rows, those that meet the constraint, and its
columns may have moved. -/

namespace Infed.Self

variable {α : Type} {cat : Catalog} {I : Interp α} {D : Database α} {targetList : List (Node α)}

/-! ### The constraint -/

mutual

/-- `init_rel` stops at the first column. -/
theorem walk_initRel : ∀ (node : Node α) (table : Table), walk initRel node table =
    (columnsOf node).head?.elim (false, table) fun v => (true, tableOf v)
  | .var _, _ | .null, _ | .const _, _ | .param _, _ | .query _ _ _ _, _
  | .rangeTblEntry _ _ _, _ => rfl
  | .opExpr _ args, table | .boolExpr _ args, table | .list args, table =>
    walkList_initRel args table
  | .nullTest _ arg, table | .targetEntry arg _, table => walk_initRel arg table
  | .subLink _ testexpr subselect, table => by
    rw [walk, initRel, columnsOf, walk_initRel testexpr table]
    · cases columnsOf testexpr with
      | nil => exact walk_initRel subselect table
      | cons v vs => rfl
    all_goals simp

theorem walkList_initRel : ∀ (nodes : List (Node α)) (table : Table), walkList initRel nodes table =
    (columnsOfList nodes).head?.elim (false, table) fun v => (true, tableOf v)
  | [], _ => rfl
  | node :: nodes, table => by
    rw [walkList, columnsOfList, walk_initRel node table]
    cases columnsOf node with
    | nil => exact walkList_initRel nodes table
    | cons v vs => rfl

end

/-- The `varno` by which the constraint is attached. -/
def varnoOf (t : Node α) : Int := Table.varnoToAdd (walk initRel t none).2

/-- The place in the range table of the FROM entry that the constraint is attached to. -/
def placeOf (t : Node α) : Nat := (varnoOf t - 1).toNat

theorem varnoOf_eq {t : Node α} {i : Nat} (hne : columnsOf t ≠ [])
    (hown : ∀ v ∈ columnsOf t, tableOf v = some (i, 0)) : varnoOf t = i := by
  obtain ⟨v, vs, hvs⟩ := List.exists_cons_of_ne_nil hne
  rw [varnoOf, walk_initRel, hvs, List.head?_cons, Option.elim_some,
    hown v (hvs ▸ List.mem_cons_self), Table.varnoToAdd]

theorem placeOf_eq {t : Node α} {i : Nat} (h : varnoOf t = i) : placeOf t = i - 1 := by
  rw [placeOf, h]
  omega

/-- `modif_rel` of a column. -/
def toFirst (v : Var) : Var := { v with varno := 1 }

theorem modifRel_maps : MapsColumns (modifRel : Mutator α Unit) toFirst := by
  refine ⟨fun _ _ _ => rfl, fun _ _ _ _ _ _ => rfl, fun _ => rfl,
    fun node traverse s hn hv hq => ?_⟩
  cases node with
  | null => exact absurd rfl hn
  | var v => exact absurd rfl (hv v)
  | query => exact absurd rfl (hq _ _ _ _)
  | _ => rfl

/-! ### The sub-select -/

/-- The output list of a sub-select in the place of the FROM entry `varno`. -/
def outputs (targetList : List (Node α)) (varno : Int) : List (Node α) :=
  keptTargets (columnOfOnly varno) targetList

/-- The FROM entry `rte` with the constraint attached to it. -/
def wrap (targetList : List (Node α)) (t rte : Node α) : Node α :=
  toSubquery (createFromQuery rte (mapColumns toFirst t) (outputs targetList (varnoOf t))) rte

/-- `rewrite_self` on a constraint fails only if there is no FROM entry for it. -/
theorem rewriteSelf_cons (htarget : Node.areExpressions targetList = true) {t : Node α}
    (ht : t.isExpression = true) (ts rtable : List (Node α)) :
    rewriteSelf targetList (t :: ts) rtable = rtable[placeOf t]?.bind fun rte =>
      rewriteSelf targetList ts (rtable.set (placeOf t) (wrap targetList t rte)) := by
  have hentries : modifTargetEntry (varnoOf t) (.list targetList) false =
      some (.list (outputs targetList (varnoOf t)), false) := mutateTarget_list _ htarget
  simp only [rewriteSelf, ← varnoOf.eq_1, modifRel_maps.mutate t ht, hentries, Option.bind_eq_bind,
    Option.bind_some, Node.elems]
  rfl

/-- The rows of the new entry: those of the old one that meet the constraint, projected. -/
theorem evalRte_wrap (t rte : Node α) (ρ : Env α) :
    evalRte I D (wrap targetList t rte) ρ = ((evalRte I D rte (ρ.push [])).filter
        fun r => evalCond I D (mapColumns toFirst t) (ρ.push [(1, r)]) = .true).map
        fun r => evalScalars I D (outputs targetList (varnoOf t)) (ρ.push [(1, r)]) := by
  cases rte with
  | rangeTblEntry kind relid subquery =>
    rw [wrap, toSubquery, evalRte, createFromQuery, evalQuery, evalRtable_eq_map]
    simp only [List.map_cons, List.map_nil, combinations_one, List.filter_map, List.map_map,
      Function.comp_def]
  | _ => rfl

/-! ### The range table -/

/-- The FROM entry in a place of the range table, with the constraints of the list that are attached
to it. -/
def wraps (targetList : List (Node α)) (place : Nat) (ts : List (Node α)) (rte : Node α) : Node α :=
  ts.foldl (fun rte t => if placeOf t = place then wrap targetList t rte else rte) rte

@[simp] theorem wraps_nil (targetList : List (Node α)) (place : Nat) (rte : Node α) :
    wraps targetList place [] rte = rte := rfl

@[simp] theorem wraps_cons (targetList : List (Node α)) (place : Nat) (t : Node α)
    (ts : List (Node α)) (rte : Node α) : wraps targetList place (t :: ts) rte =
      wraps targetList place ts (if placeOf t = place then wrap targetList t rte else rte) := rfl

/-- An entry keeps its `relid`, and is a sub-select if a constraint is attached to it. -/
theorem wraps_entry (targetList : List (Node α)) (place : Nat) (relid : Oid)
    (ts : List (Node α)) : ∀ kind subquery,
    ∃ kind' subquery', wraps targetList place ts (.rangeTblEntry kind relid subquery) =
        .rangeTblEntry kind' relid subquery' ∧
      (kind = .rteSubquery ∨ (∃ t ∈ ts, placeOf t = place) → kind' = .rteSubquery) := by
  induction ts with
  | nil => exact fun kind subquery => ⟨kind, subquery, rfl, by simp⟩
  | cons t ts ih =>
    intro kind subquery
    rw [wraps_cons]
    split
    · obtain ⟨kind', subquery', hwraps, hkind⟩ := ih .rteSubquery
        (createFromQuery (.rangeTblEntry kind relid subquery) (mapColumns toFirst t)
          (outputs targetList (varnoOf t)))
      exact ⟨kind', subquery', hwraps, fun _ => hkind (.inl rfl)⟩
    · next hne =>
      obtain ⟨kind', subquery', hwraps, hkind⟩ := ih kind subquery
      refine ⟨kind', subquery', hwraps, fun h => hkind (h.imp_right ?_)⟩
      rintro ⟨t', ht', hplace⟩
      exact ⟨t', (List.mem_cons.mp ht').resolve_left fun e => hne (e ▸ hplace), hplace⟩

/-- `rewrite_self` fails if a constraint has no FROM entry, and attaches them all otherwise. -/
theorem rewriteSelf_eq (htarget : Node.areExpressions targetList = true) :
    ∀ {ts : List (Node α)}, (∀ t ∈ ts, t.isExpression = true) → ∀ rtable : List (Node α),
      rewriteSelf targetList ts rtable =
        if ∀ t ∈ ts, placeOf t < rtable.length then
          some (rtable.mapIdx fun place => wraps targetList place ts)
        else none
  | [], _, rtable => by
    have hid : (rtable.mapIdx fun place => wraps targetList place []) = rtable :=
      List.ext_getElem? fun k => by
        rw [List.getElem?_mapIdx]
        cases rtable[k]? <;> rfl
    simp [rewriteSelf, hid]
  | t :: ts, hts, rtable => by
    rw [List.forall_mem_cons] at hts
    rw [rewriteSelf_cons htarget hts.1]
    by_cases hlt : placeOf t < rtable.length
    · rw [List.getElem?_eq_getElem hlt, Option.bind_some, rewriteSelf_eq htarget hts.2,
        List.length_set]
      simp only [List.forall_mem_cons, hlt, true_and]
      congr 2
      refine List.ext_getElem? fun k => ?_
      rw [List.getElem?_mapIdx, List.getElem?_mapIdx]
      by_cases hk : placeOf t = k
      · subst hk
        simp [hlt]
      · rw [List.getElem?_set_ne hk]
        cases rtable[k]? <;> simp [hk]
    · rw [List.getElem?_eq_none (Nat.le_of_not_lt hlt), Option.bind_none, if_neg]
      exact fun h => hlt (h t List.mem_cons_self)

/-- `optimize_self_constraint`, from what `my_modifier_self` makes of the WHERE. -/
theorem optimizeSelfConstraint_eq (htarget : Node.areExpressions targetList = true)
    {quals quals' : Node α} {context : ContextOptimizerSelf α}
    (hrun : mutate myModifierSelf quals makeContextOptimizerSelf = some (quals', context))
    (hrel : ∀ t ∈ context.alreadyConstrainRel, t.isExpression = true) (rtable : List (Node α))
    (fromlist : List Nat) :
    optimizeSelfConstraint (.query targetList rtable fromlist quals) =
      if ∀ t ∈ context.alreadyConstrainRel, placeOf t < rtable.length then
        some (.query targetList
          (rtable.mapIdx fun place => wraps targetList place context.alreadyConstrainRel) fromlist
          quals')
      else none := by
  simp only [optimizeSelfConstraint, hrun, rewriteSelf_eq htarget hrel, Option.bind_eq_bind,
    Option.bind_some]
  split <;> rfl

/-! ### `SELECT *` -/

/-- The columns of the tables, the first of which is the `i`-th FROM entry. -/
def starVars (cat : Catalog) : Nat → List Oid → List Var
  | _, [] => []
  | i, relid :: relids =>
    (List.range' 1 (cat.relnatts relid)).map (⟨i, ·, 0⟩) ++ starVars cat (i + 1) relids

/-- The target list of `SELECT *`. -/
def selectStar (cat : Catalog) (relids : List Oid) : List (Node α) :=
  targetEntries 1 (starVars cat 1 relids)

theorem columnOfOnly_self (i varattno : Nat) :
    columnOfOnly i ⟨i, varattno, 0⟩ = some ⟨1, varattno, 0⟩ := by
  simp [columnOfOnly]

theorem columnOfOnly_ne {i j : Nat} (h : i ≠ j) (varattno : Nat) :
    columnOfOnly j ⟨i, varattno, 0⟩ = none := by
  have hcast : (i : Int) ≠ j := by omega
  simp [columnOfOnly, hcast]

theorem filterMap_starVars_of_lt {i j : Nat} (h : j < i) (relids : List Oid) :
    (starVars cat i relids).filterMap (columnOfOnly j) = [] := by
  induction relids generalizing i with
  | nil => rfl
  | cons relid relids ih =>
    rw [starVars, List.filterMap_append, ih (by omega), List.append_nil]
    simp [List.filterMap_map, columnOfOnly_ne (Nat.ne_of_gt h)]

/-- Of the columns of `SELECT *`, those of one table are kept. -/
theorem filterMap_starVars {i j : Nat} (h : i ≤ j) {relids : List Oid} {relid : Oid}
    (hrelid : relids[j - i]? = some relid) :
    (starVars cat i relids).filterMap (columnOfOnly j) =
      (List.range' 1 (cat.relnatts relid)).map (⟨1, ·, 0⟩) := by
  induction relids generalizing i with
  | nil => simp at hrelid
  | cons r relids ih =>
    rw [starVars, List.filterMap_append]
    by_cases hij : i = j
    · subst hij
      obtain rfl : r = relid := by simpa using hrelid
      rw [filterMap_starVars_of_lt (Nat.lt_succ_self i), List.append_nil, List.filterMap_map]
      simp [columnOfOnly_self]
    · rw [show j - i = j - (i + 1) + 1 by omega, List.getElem?_cons_succ] at hrelid
      rw [ih (by omega) hrelid]
      simp [List.filterMap_map, columnOfOnly_ne hij]

theorem evalScalars_targetEntries (k : Nat) (vars : List Var) (ρ : Env α) :
    evalScalars I D (targetEntries k vars) ρ = vars.map ρ.column := by
  induction vars generalizing k with
  | nil => rfl
  | cons v vars ih => simp [targetEntries, evalScalars, evalScalar, ih]

/-- The rows of each table have its number of columns. -/
def Conforms (cat : Catalog) (D : Database α) : Prop :=
  ∀ relid, ∀ r ∈ D relid, r.length = cat.relnatts relid

/-- A row is the list of its columns. -/
theorem map_column_self (r : Row α) (ρ : Env α) :
    ((List.range' 1 r.length).map fun a => (⟨1, a, 0⟩ : Var)).map (ρ.push [(1, r)]).column = r := by
  refine List.ext_getElem (by simp) fun k h1 h2 => ?_
  simp [Env.column, Env.row, h2]

/-- Of `SELECT *`, the columns of the table in their order. -/
theorem outputs_selectStar {relids : List Oid} {i : Nat} {relid : Oid} (h1 : 1 ≤ i)
    (hrelid : relids[i - 1]? = some relid) : outputs (selectStar cat relids : List (Node α)) i =
      targetEntries 1 ((List.range' 1 (cat.relnatts relid)).map (⟨1, ·, 0⟩)) := by
  rw [outputs, selectStar, keptTargets_targetEntries, filterMap_starVars h1 hrelid]

theorem areExpressions_targetEntries (k : Nat) (vars : List Var) :
    Node.areExpressions (targetEntries k vars : List (Node α)) = true := by
  induction vars generalizing k with
  | nil => rfl
  | cons v vars ih => simp [targetEntries, Node.areExpressions, Node.isExpression, ih]

theorem areExpressions_selectStar (relids : List Oid) :
    Node.areExpressions (selectStar cat relids : List (Node α)) = true :=
  areExpressions_targetEntries 1 _

end Infed.Self
