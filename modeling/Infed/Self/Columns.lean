import Infed.Self.Moved
import Infed.Self.Rows

/-! The column numbers of a table that `rewrite_self` replaces.  The sub-select in its place returns
the columns of the table that the select list has, in that order, while the references to the table
keep their attribute numbers. -/

namespace Infed.Self

variable {α : Type} {I : Interp α} {D : Database α}

/-! ### What a column of a FROM entry carries -/

/-- The attribute of the table underneath that the `j`-th column of a FROM entry carries: the entry
is a table, or a sub-select whose select list has a column of its only FROM entry in that place. -/
def carries : Node α → Nat → Option Nat
  | .rangeTblEntry .rteRelation _ _, j => some j
  | .rangeTblEntry .rteSubquery _ (.query targetList [rte] _ _), j =>
    (targetList[j - 1]?.bind entryColumn).bind fun v =>
      if v.varno = 1 ∧ v.varlevelsup = 0 then carries rte v.varattno else none
  | _, _ => none

/-- What an entry carries is what its rows have: each is made from a row of the table. -/
def Sound (relid : Oid) (rte : Node α) : Prop :=
  ∀ I D ρ, ∀ row ∈ evalRte I D rte ρ, ∃ base ∈ D relid, ∀ j a, carries rte j = some a →
    row.getD (j - 1) none = base.getD (a - 1) none

theorem sound_baseTable (relid : Oid) : Sound relid (baseTable relid : Node α) := by
  intro I D ρ row hrow
  refine ⟨row, hrow, fun j a hcarries => ?_⟩
  cases hcarries
  rfl

/-! ### One replacement -/

/-- The attribute of the FROM entry `varno` that the `k`-th column of the sub-select in its place
carries. -/
def follow (targetList : List (Node α)) (varno : Int) (k : Nat) : Option Nat :=
  ((outputs targetList varno)[k - 1]?.bind entryColumn).bind fun v =>
    if v.varno = 1 ∧ v.varlevelsup = 0 then some v.varattno else none

theorem carries_wrap (targetList : List (Node α)) (t : Node α) (kind : RteKind) (relid : Oid)
    (subquery : Node α) (j : Nat) :
    carries (wrap targetList t (.rangeTblEntry kind relid subquery)) j =
      (follow targetList (varnoOf t) j).bind (carries (.rangeTblEntry kind relid subquery)) := by
  rw [wrap, toSubquery, createFromQuery, carries, follow]
  cases (outputs targetList (varnoOf t))[j - 1]?.bind entryColumn with
  | none => rfl
  | some v =>
    simp only [Option.bind_some]
    split <;> rfl

/-- The value of a target entry for a column, on a row of the entry. -/
theorem evalScalars_getD {targets : List (Node α)} {k : Nat} {v : Var}
    (h : targets[k]?.bind entryColumn = some v) (ρ : Env α) :
    (evalScalars I D targets ρ).getD k none = ρ.column v := by
  induction targets generalizing k with
  | nil => cases h
  | cons t targets ih =>
    cases k with
    | succ k => exact ih h
    | zero =>
      change entryColumn t = some v at h
      unfold entryColumn at h
      split at h
      · cases h
        rfl
      · cases h

theorem sound_wrap {rte : Node α} (targetList : List (Node α)) (t : Node α)
    {relid : Oid} (h : Sound relid rte) : Sound relid (wrap targetList t rte) := by
  cases rte with
  | rangeTblEntry kind oid subquery =>
    intro I D ρ row hrow
    rw [evalRte_wrap] at hrow
    obtain ⟨inner, hinner, rfl⟩ := List.mem_map.mp hrow
    obtain ⟨base, hbase, hcarries⟩ := h I D (ρ.push []) inner (List.mem_of_mem_filter hinner)
    refine ⟨base, hbase, fun j a hj => ?_⟩
    rw [carries_wrap, follow, Option.bind_assoc, Option.bind_eq_some_iff] at hj
    obtain ⟨v, hv, hj⟩ := hj
    obtain ⟨attno, hattno, ha⟩ := Option.bind_eq_some_iff.mp hj
    split at hattno
    · next hown =>
      cases hattno
      rw [evalScalars_getD hv, ← hcarries _ a ha]
      simp [Env.column, Env.row, hown]
    · cases hattno
  | _ => exact h

/-! ### The whole range table -/

/-- The attribute of the FROM entry in a place of the range table that the `k`-th column of it
carries after the replacements for the constraints. -/
def followed (targetList : List (Node α)) (place : Nat) : List (Node α) → Nat → Option Nat
  | [], k => some k
  | t :: ts, k => (followed targetList place ts k).bind fun k =>
    if placeOf t = place then follow targetList (varnoOf t) k else some k

theorem carries_wraps {targetList : List (Node α)} {place : Nat} {ts : List (Node α)} :
    ∀ (kind : RteKind) (relid : Oid) (subquery : Node α) (j : Nat),
      carries (wraps targetList place ts (.rangeTblEntry kind relid subquery)) j =
        (followed targetList place ts j).bind (carries (.rangeTblEntry kind relid subquery)) := by
  induction ts with
  | nil => exact fun _ _ _ _ => rfl
  | cons t ts ih =>
    intro kind relid subquery j
    rw [wraps_cons, followed, Option.bind_assoc]
    by_cases hplace : placeOf t = place
    · have hshape : ∃ sub, wrap targetList t (.rangeTblEntry kind relid subquery) =
          .rangeTblEntry .rteSubquery relid sub := ⟨_, rfl⟩
      obtain ⟨sub, hsub⟩ := hshape
      simp only [if_pos hplace]
      rw [hsub, ih, ← hsub]
      congr 1
      funext k
      exact carries_wrap targetList t kind relid subquery k
    · simp only [if_neg hplace, Option.bind_some]
      exact ih kind relid subquery j

theorem sound_wraps {targetList : List (Node α)} {place : Nat} {ts : List (Node α)} {relid : Oid} :
    ∀ {rte : Node α}, Sound relid rte → Sound relid (wraps targetList place ts rte) := by
  induction ts with
  | nil => exact fun h => h
  | cons t ts ih =>
    intro rte h
    rw [wraps_cons]
    split
    · exact ih (sound_wrap targetList t h)
    · exact ih h

theorem carries_constrained (targetList : List (Node α)) (place : Nat) (ts : List (Node α))
    (relid : Oid) (j : Nat) :
    carries (wraps targetList place ts (baseTable relid)) j = followed targetList place ts j := by
  rw [baseTable, carries_wraps]
  exact Option.bind_fun_some _

/-- The range table after `rewrite_self`, over base tables. -/
def constrained (targetList ts : List (Node α)) (relids : List Oid) : List (Node α) :=
  (relids.map baseTable).mapIdx fun place => wraps targetList place ts

theorem constrained_getElem? (targetList ts : List (Node α)) (relids : List Oid) (place : Nat) :
    (constrained targetList ts relids)[place]? =
      relids[place]?.map fun relid => wraps targetList place ts (baseTable relid) := by
  rw [constrained, List.getElem?_mapIdx, List.getElem?_map, Option.map_map]
  rfl

/-! ### The query -/

/-- The references to the query itself in its select list, its WHERE, and the sub-selects there. -/
def ownReferences (targetList : List (Node α)) (quals : Node α) : List Var :=
  (referencesList targetList ++ references quals).filter (·.varlevelsup = 0)

/-- Whatever the select list and the WHERE of a query over base tables are, `my_modifier_self`
returns what is left of the WHERE and the constraints.  From these on, `optimize_self_constraint`
returns and every reference that is left finds its attribute exactly if each constraint has a FROM
entry and each such attribute is left in its place by the constraints of its table: for one
constraint, if the `j`-th column of the table in the select list is attribute `j`. -/
theorem columns_survive_iff {targetList : List (Node α)}
    (htarget : Node.areExpressions targetList = true) {quals : Node α}
    (hquals : quals.isExpression = true) (relids : List Oid) (fromlist : List Nat) :
    ∃ quals' context,
      mutate myModifierSelf quals makeContextOptimizerSelf = some (quals', context) ∧
      ((∃ rtable', optimizeSelfConstraint
            (.query targetList (relids.map baseTable) fromlist quals) =
              some (.query targetList rtable' fromlist quals') ∧
          (∀ (place : Nat) relid rte, relids[place]? = some relid → rtable'[place]? = some rte →
            Sound relid rte) ∧
          ∀ v ∈ ownReferences targetList quals', ∀ rte, entryAt rtable' v.varno = some rte →
            carries rte v.varattno = some v.varattno) ↔
        (∀ t ∈ context.alreadyConstrainRel, placeOf t < relids.length) ∧
        ∀ v ∈ ownReferences targetList quals', 1 ≤ v.varno → v.varno ≤ relids.length →
          followed targetList (v.varno - 1) context.alreadyConstrainRel v.varattno =
            some v.varattno) := by
  obtain ⟨quals', context, hrun, _, hrel⟩ := myModifierSelf_returns hquals
  refine ⟨quals', context, hrun, ?_⟩
  rw [optimizeSelfConstraint_eq htarget hrun hrel, List.length_map, ← constrained]
  by_cases hplaced : ∀ t ∈ context.alreadyConstrainRel, placeOf t < relids.length
  · rw [if_pos hplaced]
    constructor
    · rintro ⟨rtable', hq, _, hfinds⟩
      cases hq
      refine ⟨hplaced, fun v hv h1 hn => ?_⟩
      obtain ⟨relid, hrelid⟩ : ∃ relid, relids[v.varno - 1]? = some relid :=
        ⟨_, List.getElem?_eq_getElem (by omega)⟩
      rw [← carries_constrained targetList (v.varno - 1) _ relid]
      refine hfinds v hv _ ?_
      rw [entryAt_of_pos _ h1, constrained_getElem?, hrelid, Option.map_some]
    · rintro ⟨_, hfollowed⟩
      refine ⟨_, rfl, fun place relid rte hrelid hrte => ?_, fun v hv rte hrte => ?_⟩
      · rw [constrained_getElem?, hrelid] at hrte
        cases hrte
        exact sound_wraps (sound_baseTable relid)
      · obtain ⟨h1, _, hrte⟩ := entryAt_eq_some hrte
        rw [constrained_getElem?, Option.map_eq_some_iff] at hrte
        obtain ⟨relid, hrelid, rfl⟩ := hrte
        have hlt := (List.getElem?_eq_some_iff.mp hrelid).1
        rw [carries_constrained]
        exact hfollowed v hv h1 (by omega)
  · rw [if_neg hplaced]
    exact iff_of_false (by simp) fun h => hplaced h.1

/-- `SELECT r.a, s.b, r.b FROM r, s WHERE r.a = 1 AND r.b = s.b` -/
def inOrder : Node Int :=
  .query [.targetEntry (.var ⟨1, 1, 0⟩) 1, .targetEntry (.var ⟨2, 2, 0⟩) 2,
      .targetEntry (.var ⟨1, 2, 0⟩) 3]
    ([1, 2].map baseTable) [1, 2]
    (.boolExpr .andExpr [.opExpr 96 [.var ⟨1, 1, 0⟩, .const (some 1)],
      .opExpr 96 [.var ⟨1, 2, 0⟩, .var ⟨2, 2, 0⟩]])

/-- The table `r` is replaced, and its columns are in order. -/
theorem columns_survive_iff_inOrder :
    ∃ quals' context,
      mutate myModifierSelf inOrder.quals makeContextOptimizerSelf = some (quals', context) ∧
      ((∃ rtable', optimizeSelfConstraint inOrder =
              some (.query inOrder.targetList rtable' [1, 2] quals') ∧
          (∀ (place : Nat) relid rte, [1, 2][place]? = some relid → rtable'[place]? = some rte →
            Sound relid rte) ∧
          ∀ v ∈ ownReferences inOrder.targetList quals', ∀ rte,
            entryAt rtable' v.varno = some rte → carries rte v.varattno = some v.varattno) ↔
        (∀ t ∈ context.alreadyConstrainRel, placeOf t < [1, 2].length) ∧
        ∀ v ∈ ownReferences inOrder.targetList quals', 1 ≤ v.varno → v.varno ≤ [1, 2].length →
          followed inOrder.targetList (v.varno - 1) context.alreadyConstrainRel v.varattno =
            some v.varattno) :=
  columns_survive_iff rfl rfl [1, 2] [1, 2]

/-- `SELECT r.b, r.a FROM r WHERE r.a = 1` -/
def swapped : Node Int :=
  .query [.targetEntry (.var ⟨1, 2, 0⟩) 1, .targetEntry (.var ⟨1, 1, 0⟩) 2] [baseTable 1] [1]
    (.boolExpr .andExpr [.opExpr 96 [.var ⟨1, 1, 0⟩, .const (some 1)]])

/-- With the columns of `r` in another order, `r.b` becomes `r.a`: on a table with the row `(1, 2)`
the query returns `(1, 2)` instead of `(2, 1)`. -/
theorem columns_survive_fails :
    ∃ q' rte, optimizeSelfConstraint swapped = some q' ∧
      ⟨1, 2, 0⟩ ∈ ownReferences q'.targetList q'.quals ∧
      q'.rtable[0]? = some rte ∧ carries rte 2 = some 1 ∧
      evalQuery intInterp (fun _ => [[some 1, some 2]]) swapped .empty = [[some 2, some 1]] ∧
      evalQuery intInterp (fun _ => [[some 1, some 2]]) q' .empty = [[some 1, some 2]] :=
  ⟨_, _, rfl, by decide +kernel, rfl, rfl, by decide +kernel, by decide +kernel⟩

end Infed.Self
