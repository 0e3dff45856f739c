import Infed.Codd.Pass
import Infed.Path

/-! Column resolution.  Down a path from the root of a query, the walker and the mutator are in the
same scope, and the mutator's counter of queries is the number of scopes that the walker has
recorded by then, so that both find the same true variable for a column. -/

namespace Infed.Codd

variable {α : Type} {cat : Catalog}

/-- `my_walker` and `my_mutator`, each in its own run, are about to enter the same node. -/
structure InStep (cat : Catalog) (os : Scopes) (node : Node α) (w : ContextWalkerSetConstraint)
    (m : ContextModifier α) : Prop where
  walker : WalkerIn cat os node w
  mutator : MutatorIn cat (fun _ => True) os w.currentTrueVar w.rtes node m
  querry : m.whereIAmQuerry = w.trueVars.length

theorem InStep.step {os : Scopes} {node child : Node α} {w : ContextWalkerSetConstraint}
    {m : ContextModifier α} (h : InStep cat os node w m) {i : Nat}
    (hchild : node.children[i]? = some child) :
    ∃ w' m', (∀ path, pass.walkerAt cat (i :: path) node w = pass.walkerAt cat path child w') ∧
      (∀ path, pass.mutatorAt (i :: path) node m = pass.mutatorAt path child m') ∧
      InStep cat (innerScopes os node) child w' m' ∧ m'.trueVars = m.trueVars := by
  obtain ⟨w', hwalk, hwalker, _, _, hscope, hrtes, hlen⟩ := h.walker.step (P := pass) hchild
  obtain ⟨m', hmutate, hmutator, _, _, _, _, htrueVars, hquerry⟩ :=
    h.mutator.step (P := pass) (fun _ => rfl) hchild
  rw [← hscope, ← hrtes] at hmutator
  refine ⟨w', m', hwalk, hmutate, ⟨hwalker, hmutator, ?_⟩, htrueVars⟩
  rw [hquerry, hlen, h.querry]

theorem InStep.run {path : List Nat} {os : Scopes} {node target : Node α}
    {w : ContextWalkerSetConstraint} {m : ContextModifier α} (h : InStep cat os node w m)
    (hpath : nodeAt path node = some target) :
    ∃ w' m', pass.walkerAt cat path node w = some (target, w') ∧
      pass.mutatorAt path node m = some (target, m') ∧
      InStep cat (scopesAt path node os) target w' m' ∧ m'.trueVars = m.trueVars := by
  induction path generalizing os node w m with
  | nil =>
    cases hpath
    exact ⟨w, m, rfl, rfl, h, rfl⟩
  | cons i path ih =>
    obtain ⟨child, hchild, hrest⟩ := Option.bind_eq_some_iff.mp hpath
    obtain ⟨w1, m1, hwalk1, hmutate1, hstep, htrue1⟩ := h.step hchild
    obtain ⟨w', m', hwalk, hmutate, hrun, htrue⟩ := ih hstep hrest
    rw [scopesAt, hchild, Option.elim_some]
    exact ⟨w', m', (hwalk1 path).trans hwalk, (hmutate1 path).trans hmutate, hrun,
      htrue.trans htrue1⟩

/-- Before the walk and before the run of the mutator that follows it. -/
theorem inStep_start {targetList : List (Node α)} {relids : List Oid} {quals : Node α}
    (h : Cond (Atom cat) True [relids] quals) {positive : Bool} {c : ContextModifier α}
    (prep : Prepared cat (selectFrom targetList relids quals) positive c) :
    InStep cat [] (selectFrom targetList relids quals) makeContextWalkerSetConstraint c := by
  refine ⟨⟨.query h, trivial, 0, 0, walkInv_make⟩, ⟨.query h, trivial, fun hq => (by cases hq),
    ⟨prep.atStart.queries, prep.atStart.bools, prep.atStart.lengths, ?_, ?_⟩, ?_⟩, ?_⟩
  · exact fun _ _ _ _ => trivial
  · exact fun _ _ _ _ => trivial
  · exact fun _ _ => trivial
  · exact prep.whereIAmQuerry

/-- A column that both traversals meet resolves, in each, to a true variable of the relation and
attribute that it denotes. -/
theorem InStep.resolves {os : Scopes} {v : Var} {w : ContextWalkerSetConstraint}
    {m : ContextModifier α} (h : InStep cat os (.var v : Node α) w m) :
    ∃ relid, columnOf os v = some (relid, v.varattno) ∧
      (getTrueVar w.currentTrueVar v).map TrueVar.column = some (relid, v.varattno) ∧
      (getTrueVar m.currentTrueVar v).map TrueVar.column = some (relid, v.varattno) := by
  have hscope : v.InScope cat os := by
    generalize hnode : (.var v : Node α) = node at h
    cases h.walker.visited with
    | operand ha => cases ha <;> cases hnode; assumption
    | query _ => cases hnode
    | cond ha =>
      cases ha with
      | leaf ha => cases ha <;> cases hnode
      | null | and _ _ | or _ _ | not _ _ | exist _ => cases hnode
  obtain ⟨t, ht, hcolumn⟩ := getTrueVar_of_inScope h.walker.resolves hscope
  obtain ⟨relid, hrelid, _⟩ := hscope
  have hmap : (getTrueVar w.currentTrueVar v).map TrueVar.column = some (relid, v.varattno) := by
    rw [ht, Option.map_some, ← hcolumn, hrelid]
  refine ⟨relid, hrelid, hmap, ?_⟩
  rw [h.mutator.current rfl]
  exact hmap

/-- The scope that the mutator takes at a query is the one that the walker recorded for it. -/
theorem InStep.query_scope {os : Scopes} {node : Node α} {w : ContextWalkerSetConstraint}
    {m : ContextModifier α} (h : InStep cat os node w m) (hq : node.isQuery = true) :
    ∃ w', pass.enterWalker cat node w = some w' ∧
      w'.trueVars[m.whereIAmQuerry]? = some w'.currentTrueVar ∧
      m.trueVars[m.whereIAmQuerry]? = some w'.currentTrueVar := by
  cases h.walker.visited with
  | operand ha => cases ha <;> cases hq
  | cond ha =>
    cases ha with
    | leaf ha => cases ha <;> cases hq
    | null | and _ _ | or _ _ | not _ _ | exist _ => cases hq
  | @query _ relids quals _ =>
    obtain ⟨schema, hopen, _⟩ := pass.openQuery_baseTables (α := α) cat relids w
    obtain ⟨post, hpost⟩ := h.mutator.atPart.queries
    rw [selectFrom, queryScopes, map_relidOf_baseTable] at hpost
    refine ⟨w.enter cat relids schema, hopen, ?_, ?_⟩
    · rw [h.querry]
      simp [ContextWalkerSetConstraint.enter]
    · have hfirst := congrArg (·[0]?) hpost
      rw [List.getElem?_drop, Nat.add_zero] at hfirst
      exact hfirst

/-- In a walk and the run of the mutator that follows it, every column in a WHERE clause resolves to
the true variable of the relation and attribute that it denotes, both when the walker meets it and
when the mutator does; and at each query the mutator takes the scope that the walker recorded for
that query. -/
theorem columns_resolve (cat : Catalog) (targetList : List (Node α)) (relids : List Oid)
    (quals : Node α) (h : Cond (Atom cat) True [relids] quals) (positive : Bool) :
    ∃ w c, myWalker cat (selectFrom targetList relids quals) makeContextWalkerSetConstraint =
        some w ∧
      makeContextModifier positive w = some c ∧
      (∀ path v, nodeAt path (selectFrom targetList relids quals) = some (.var v) →
        ∃ cw cm relid,
          pass.walkerAt cat path (selectFrom targetList relids quals)
            makeContextWalkerSetConstraint = some (.var v, cw) ∧
          pass.mutatorAt path (selectFrom targetList relids quals) c = some (.var v, cm) ∧
          columnOf (scopesAt path (selectFrom targetList relids quals) []) v =
            some (relid, v.varattno) ∧
          (getTrueVar cw.currentTrueVar v).map TrueVar.column = some (relid, v.varattno) ∧
          (getTrueVar cm.currentTrueVar v).map TrueVar.column = some (relid, v.varattno)) ∧
      ∀ path target, nodeAt path (selectFrom targetList relids quals) = some target →
        target.isQuery = true →
        ∃ cw cw' cm,
          pass.walkerAt cat path (selectFrom targetList relids quals)
            makeContextWalkerSetConstraint = some (target, cw) ∧
          pass.enterWalker cat target cw = some cw' ∧
          pass.mutatorAt path (selectFrom targetList relids quals) c = some (target, cm) ∧
          cm.whereIAmQuerry = cw.trueVars.length ∧
          cw'.trueVars[cm.whereIAmQuerry]? = some cw'.currentTrueVar ∧
          c.trueVars[cm.whereIAmQuerry]? = some cw'.currentTrueVar := by
  obtain ⟨w, hwalk, hmake⟩ := pass.prepares targetList h
  obtain ⟨c, hc, prep⟩ := hmake positive
  have hstart := inStep_start h prep
  refine ⟨w, c, hwalk, hc, fun path v hpath => ?_, fun path target hpath hq => ?_⟩
  · obtain ⟨cw, cm, hw, hm, hstep, _⟩ := hstart.run hpath
    obtain ⟨relid, hcolumn, hwalker, hmutator⟩ := hstep.resolves
    exact ⟨cw, cm, relid, hw, hm, hcolumn, hwalker, hmutator⟩
  · obtain ⟨cw, cm, hw, hm, hstep, htrueVars⟩ := hstart.run hpath
    obtain ⟨cw', henter, happended, htaken⟩ := hstep.query_scope hq
    exact ⟨cw, cw', cm, hw, henter, hm, hstep.querry, happended, htrueVars ▸ htaken⟩

/-- `r.a = 1 OR NOT EXISTS (SELECT FROM t, r WHERE t.a = s.b AND EXISTS (SELECT FROM s WHERE
s.a = r.b AND s.b = r.a))`, in a query over `r, s`: the last two columns are of the `r` in the
middle and of the one outside. -/
def nested : Node Int :=
  .boolExpr .orExpr [.opExpr 98 [.var ⟨1, 1, 0⟩, .const (some 1)],
    .boolExpr .notExpr [existsFrom [] [3, 1] (.boolExpr .andExpr [
      .opExpr 98 [.var ⟨1, 1, 0⟩, .var ⟨2, 2, 1⟩],
      existsFrom [] [2] (.boolExpr .andExpr [
        .opExpr 98 [.var ⟨1, 1, 0⟩, .var ⟨2, 2, 1⟩],
        .opExpr 98 [.var ⟨1, 2, 0⟩, .var ⟨1, 1, 2⟩]])])]]

theorem nested_cond : Cond (Atom (Catalog.nullable 2)) True [[1, 2]] nested := by
  have hcolumn : ∀ os v, (columnOf os v).isSome = true → 1 ≤ v.varattno → v.varattno ≤ 2 →
      Operand (Catalog.nullable 2) os (.var v : Node Int) :=
    fun os v hsome h1 h2 => .column (Var.inScope_of_columnOf hsome h1 fun _ => h2)
  have hequal : ∀ os v (b : Node Int), (columnOf os v).isSome = true → 1 ≤ v.varattno →
      v.varattno ≤ 2 → Operand (Catalog.nullable 2) os b →
      Cond (Atom (Catalog.nullable 2)) True os (.opExpr 98 [.var v, b]) :=
    fun os v b hv h1 h2 hb => .leaf (.comparison (by simpa using ⟨hcolumn os v hv h1 h2, hb⟩))
  refine .or (by simp) (List.forall_mem_cons.mpr ⟨?_, List.forall_mem_cons.mpr ⟨?_, by simp⟩⟩)
  · exact hequal _ _ _ (by decide) (by decide) (by decide) .constant
  · refine .not (.inl trivial) (.exist (.and (by simp)
      (List.forall_mem_cons.mpr ⟨?_, List.forall_mem_cons.mpr ⟨?_, by simp⟩⟩)))
    · exact hequal _ _ _ (by decide) (by decide) (by decide)
        (hcolumn _ _ (by decide) (by decide) (by decide))
    · refine .exist (.and (by simp)
        (List.forall_mem_cons.mpr ⟨?_, List.forall_mem_cons.mpr ⟨?_, by simp⟩⟩))
      · exact hequal _ _ _ (by decide) (by decide) (by decide)
          (hcolumn _ _ (by decide) (by decide) (by decide))
      · exact hequal _ _ _ (by decide) (by decide) (by decide)
          (hcolumn _ _ (by decide) (by decide) (by decide))

/-- In two sub-selects, one inside the other, with columns of all three queries. -/
theorem columns_resolve_nested :
    ∃ w c, myWalker (Catalog.nullable 2) (selectFrom [] [1, 2] nested)
        makeContextWalkerSetConstraint = some w ∧ makeContextModifier true w = some c ∧
      (∀ path v, nodeAt path (selectFrom [] [1, 2] nested) = some (.var v) →
        ∃ cw cm relid,
          pass.walkerAt (Catalog.nullable 2) path (selectFrom [] [1, 2] nested)
            makeContextWalkerSetConstraint = some (.var v, cw) ∧
          pass.mutatorAt path (selectFrom [] [1, 2] nested) c = some (.var v, cm) ∧
          columnOf (scopesAt path (selectFrom [] [1, 2] nested) []) v = some (relid, v.varattno) ∧
          (getTrueVar cw.currentTrueVar v).map TrueVar.column = some (relid, v.varattno) ∧
          (getTrueVar cm.currentTrueVar v).map TrueVar.column = some (relid, v.varattno)) ∧
      ∀ path target, nodeAt path (selectFrom [] [1, 2] nested) = some target →
        target.isQuery = true →
        ∃ cw cw' cm,
          pass.walkerAt (Catalog.nullable 2) path (selectFrom [] [1, 2] nested)
            makeContextWalkerSetConstraint = some (target, cw) ∧
          pass.enterWalker (Catalog.nullable 2) target cw = some cw' ∧
          pass.mutatorAt path (selectFrom [] [1, 2] nested) c = some (target, cm) ∧
          cm.whereIAmQuerry = cw.trueVars.length ∧
          cw'.trueVars[cm.whereIAmQuerry]? = some cw'.currentTrueVar ∧
          c.trueVars[cm.whereIAmQuerry]? = some cw'.currentTrueVar :=
  columns_resolve _ [] [1, 2] nested nested_cond true

end Infed.Codd
