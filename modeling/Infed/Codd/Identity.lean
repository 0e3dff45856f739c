import Infed.Codd.Pass
import Infed.Path

/-! Whose column a dropped null check relies on.  The columns known not to be NULL are recorded as
the nodes that the walker made for a FROM entry, and looked up by relation and attribute.  So a
check can be dropped for what is known of another FROM entry of the same table, unless every column
of a weakened comparison is told apart by its relation and attribute. -/

namespace Infed.Codd

variable {α : Type} {cat : Catalog}

mutual

/-- The true variables of the columns of the comparisons that the mutator weakens. -/
def checkedVars (cat : Catalog) : Bool → Node α → Scope → Nat → List TrueVar
  | positive, .opExpr opno args, scope, _ =>
    if !positive && weakened.contains opno then args.filterMap (operandVar scope) else []
  | positive, .boolExpr .notExpr args, scope, rte => checkedVarsList cat (!positive) args scope rte
  | positive, .boolExpr _ args, scope, rte => checkedVarsList cat positive args scope rte
  | positive, .subLink _ _ subselect, scope, rte => checkedVars cat positive subselect scope rte
  | positive, .query _ rtable _ quals, scope, rte =>
    checkedVars cat positive quals (scope.enter cat rte (rtable.map relidOf)) (rte + rtable.length)
  | _, _, _, _ => []

def checkedVarsList (cat : Catalog) : Bool → List (Node α) → Scope → Nat → List TrueVar
  | _, [], _, _ => []
  | positive, node :: nodes, scope, rte =>
    checkedVars cat positive node scope rte ++
      checkedVarsList cat positive nodes scope (rte + rteCount node)

end

/-- Every column of a weakened comparison is declared NOT NULL, or else no other FROM entry of its
table has the same attribute in a comparison or a null test. -/
def ToldApart (cat : Catalog) (positive : Bool) (q : Node α) : Prop :=
  ∀ rv ∈ checkedVars cat positive q .root 0, cat.attnotnull rv.vartype rv.varattno = true ∨
    ∀ t ∈ seenVars cat q .root 0, t.column = rv.column → t = rv

instance (cat : Catalog) (positive : Bool) (q : Node α) : Decidable (ToldApart cat positive q) :=
  inferInstanceAs (Decidable (∀ rv ∈ checkedVars cat positive q .root 0,
    cat.attnotnull rv.vartype rv.varattno = true ∨
      ∀ t ∈ seenVars cat q .root 0, t.column = rv.column → t = rv))

theorem checkedVarsList_child {positive : Bool} {nodes : List (Node α)} {scope : Scope}
    {rte i : Nat}
    {child : Node α} (hchild : nodes[i]? = some child) :
    ∀ t ∈ checkedVars cat positive child scope (rte + rteCountList (nodes.take i)),
      t ∈ checkedVarsList cat positive nodes scope rte := by
  induction nodes generalizing rte i with
  | nil => simp at hchild
  | cons node nodes ih =>
    intro t ht
    rw [checkedVarsList, List.mem_append]
    cases i with
    | zero =>
      cases hchild
      exact .inl ht
    | succ i =>
      refine .inr (ih (by simpa using hchild) t ?_)
      rwa [Nat.add_assoc]

theorem checkedVars_operand {os : Scopes} {a : Node α} (ha : Operand cat os a) (positive : Bool)
    (scope : Scope) (rte : Nat) : checkedVars cat positive a scope rte = [] := by
  cases ha <;> rfl

/-- The columns checked in a child are checked in the node. -/
theorem goesDown_checkedVars (S : TrueVar → Prop) :
    GoesDown (α := α) cat fun positive node scope rte =>
      ∀ t ∈ checkedVars cat positive node scope rte, S t := by
  intro positive os node scope rte i child hvis hchild hS t ht
  have hmem := List.mem_of_getElem? hchild
  cases hvis with
  | operand ha => cases ha <;> simp [Node.children] at hchild
  | query _ =>
    cases i with
    | zero =>
      cases hchild
      exact hS t ht
    | succ i => simp [selectFrom, Node.children] at hchild
  | cond ha =>
    cases ha with
    | null => simp [Node.children] at hchild
    | leaf ha =>
      have hop : Operand cat os child := by
        cases ha with
        | comparison hargs => exact hargs child hmem
        | nullTest harg =>
          rw [Node.children, List.mem_singleton] at hmem
          exact hmem ▸ harg
      rw [checkedVars_operand hop] at ht
      cases ht
    | and _ _ | or _ _ | not _ _ => exact hS t (checkedVarsList_child hchild t ht)
    | exist _ =>
      rcases i with _ | _ | i
      · cases hchild
        cases ht
      · cases hchild
        exact hS t ht
      · simp [existsFrom, Node.children] at hchild

/-! ### Dropped checks -/

/-- The IS NULL test of the column is a disjunct of the rewritten comparison. -/
def HasNullCheck (v : Var) : Node α → Prop
  | .boolExpr .orExpr args => isNull v ∈ args
  | _ => False

/-- Where the mutator weakens a comparison and leaves out the IS NULL test of a column, the column
is declared NOT NULL, or the true variable of its own FROM entry is known not to be NULL. -/
def DropsOwn (cat : Catalog) (opno : Oid) (args : List (Node α)) (m : ContextModifier α) : Prop :=
  m.positive = false → opno ∈ weakened → ∀ v, .var v ∈ args →
    ∃ rv out m', getTrueVar m.currentTrueVar v = some rv ∧
      myMutator (.opExpr opno args) m = some (out, m') ∧
      (¬HasNullCheck v out → cat.attnotnull rv.vartype rv.varattno = true ∨
        rv ∈ m.listOfNotNullInCurrent)

/-- Where the mutator weakens a comparison, the column is declared NOT NULL, or its check is pending
from before, or what is known of its table's attribute is known of its own FROM entry. -/
def OwnEntries (cat : Catalog) (opno : Oid) (args : List (Node α)) (m : ContextModifier α) : Prop :=
  m.positive = false → opno ∈ weakened → ∀ v, .var v ∈ args → isNull v ∉ m.constraintToAdd →
    ∀ rv, getTrueVar m.currentTrueVar v = some rv →
      cat.attnotnull rv.vartype rv.varattno = false →
      (∃ t ∈ m.listOfNotNullInCurrent, t.column = rv.column) → rv ∈ m.listOfNotNullInCurrent

section

variable {os : Scopes} {opno : Oid} {args : List (Node α)} {m : ContextModifier α}

theorem mem_ownChecks_iff (hargs : ∀ a ∈ args, Operand cat os a) (hneg : m.positive = false)
    (hop : opno ∈ weakened) {v : Var} (hv : .var v ∈ args) {rv : TrueVar}
    (hrv : getTrueVar m.currentTrueVar v = some rv) :
    isNull v ∈ pass.ownChecks opno args m ↔
      isInListTrueVar m.listOfNotNullInCurrent rv = false := by
  have hweak : pass.checks (α := α) m.positive opno = true := by simp [pass, hneg, hop]
  rw [Pass.ownChecks, hweak, Bool.or_true, if_pos rfl, List.mem_flatMap]
  constructor
  · rintro ⟨a, ha, hcheck⟩
    cases hargs a ha with
    | constant => cases hcheck
    | @column w _ =>
      -- only the column itself adds its check
      cases hw : getTrueVar m.currentTrueVar w with
      | none => simp [Pass.operandChecks, hw] at hcheck
      | some tw =>
        cases hknown : isInListTrueVar m.listOfNotNullInCurrent tw with
        | true => simp [Pass.operandChecks, hw, hknown, pass] at hcheck
        | false =>
          obtain rfl : v = w := by simpa [Pass.operandChecks, hw, hknown, pass, isNull] using hcheck
          cases hrv.symm.trans hw
          exact hknown
  · intro hunknown
    exact ⟨.var v, hv, by simp [Pass.operandChecks, hrv, hunknown, pass]⟩

/-- The check of a column stands in the result if it was pending, or the column is not found among
the known ones. -/
theorem hasNullCheck_iff (hargs : ∀ a ∈ args, Operand cat os a)
    (hs : m.currentTrueVar.Resolves cat os) (hneg : m.positive = false) (hop : opno ∈ weakened)
    {v : Var} (hv : .var v ∈ args) {rv : TrueVar}
    (hrv : getTrueVar m.currentTrueVar v = some rv) :
    ∃ out m', myMutator (.opExpr opno args) m = some (out, m') ∧
      (HasNullCheck v out ↔ isNull v ∈ m.constraintToAdd ∨
        isInListTrueVar m.listOfNotNullInCurrent rv = false) := by
  have hrun := pass.myMutator_opExpr (show pass.strictPart opno = none from rfl) hargs hs
  rw [hneg] at hrun
  rw [← mem_ownChecks_iff hargs hneg hop hv hrv, ← List.mem_append]
  by_cases hempty : (m.constraintToAdd ++ pass.ownChecks opno args m).isEmpty = true
  · rw [if_pos hempty] at hrun
    rw [List.isEmpty_iff.mp hempty]
    exact ⟨_, _, hrun, by simp [HasNullCheck]⟩
  · rw [if_neg hempty] at hrun
    refine ⟨_, _, hrun, ?_⟩
    have hlast : isNull v ∉ [(.opExpr opno args : Node α)] := by simp [isNull]
    simp only [HasNullCheck, List.mem_append, hlast, or_false]

/-- A comparison drops checks for the columns' own FROM entries only, exactly if what is known of
them is known of these. -/
theorem dropsOwn_iff_ownEntries (hargs : ∀ a ∈ args, Operand cat os a)
    (hs : m.currentTrueVar.Resolves cat os) :
    DropsOwn cat opno args m ↔ OwnEntries cat opno args m := by
  constructor
  · intro h hneg hop v hv hpending rv hrv hnullable hknown
    obtain ⟨rv1, out, m', hrv1, hrun, hdrop⟩ := h hneg hop v hv
    cases hrv.symm.trans hrv1
    obtain ⟨out1, m1, hrun1, hiff⟩ := hasNullCheck_iff hargs hs hneg hop hv hrv
    cases hrun.symm.trans hrun1
    have hin : isInListTrueVar m.listOfNotNullInCurrent rv = true :=
      isInListTrueVar_iff.mpr (List.mem_map.mpr hknown)
    refine (hdrop fun hcheck => ?_).resolve_left (by simp [hnullable])
    rcases hiff.mp hcheck with hcheck | hcheck
    · exact hpending hcheck
    · rw [hin] at hcheck
      cases hcheck
  · intro h hneg hop v hv
    obtain ⟨rv, hrv, _⟩ : ∃ rv, getTrueVar m.currentTrueVar v = some rv ∧
        columnOf os v = some rv.column := by
      cases hargs _ hv with
      | column hin => exact getTrueVar_of_inScope hs hin
    obtain ⟨out, m', hrun, hiff⟩ := hasNullCheck_iff hargs hs hneg hop hv hrv
    refine ⟨rv, out, m', hrv, hrun, fun hno => ?_⟩
    rw [hiff, not_or, Bool.not_eq_false] at hno
    cases hnullable : cat.attnotnull rv.vartype rv.varattno with
    | true => exact .inl rfl
    | false =>
      exact .inr (h hneg hop v hv hno.1 rv hrv hnullable
        (List.mem_map.mp (isInListTrueVar_iff.mp hno.2)))

end

/-- In every run of the mutator, at every comparison, the checks are left out for the columns' own
FROM entries if and only if what is known there of an attribute of their tables is known of these
entries.  If the weakened columns of the query are told apart, that is so everywhere. -/
theorem dropsOwn_iff (cat : Catalog) (targetList : List (Node α)) (relids : List Oid)
    (quals : Node α) (h : Cond (Atom cat) True [relids] quals) (positive : Bool) :
    ∃ w c, myWalker cat (selectFrom targetList relids quals) makeContextWalkerSetConstraint =
        some w ∧ makeContextModifier positive w = some c ∧
      ∀ path opno args, nodeAt path (selectFrom targetList relids quals) =
          some (.opExpr opno args) →
        ∃ m, pass.mutatorAt path (selectFrom targetList relids quals) c =
          some (.opExpr opno args, m) ∧
          (DropsOwn cat opno args m ↔ OwnEntries cat opno args m) ∧
          (ToldApart cat positive (selectFrom targetList relids quals) →
            OwnEntries cat opno args m) := by
  obtain ⟨w, hwalk, hmake⟩ := pass.prepares targetList h
  obtain ⟨c, hc, prep⟩ := hmake positive
  refine ⟨w, c, hwalk, hc, fun path opno args hpath => ?_⟩
  -- what is known is declared NOT NULL or occurs in the query
  have hin : MutatorIn cat (fun t => cat.attnotnull t.vartype t.varattno = true ∨
      t ∈ seenVars cat (selectFrom targetList relids quals) .root 0) [] .root 0
      (selectFrom targetList relids quals) c :=
    ⟨.query h, trivial, fun hq => (by cases hq), ⟨prep.atStart.queries, prep.atStart.bools,
      prep.atStart.lengths, fun e he t ht => .inr (prep.atStart.setsTrue e he t ht),
      fun e he t ht => .inr (prep.atStart.setsFalse e he t ht)⟩,
      fun t ht => .inl (prep.schema t ht)⟩
  obtain ⟨os, scope, rte, m, hm, hat, hchecked, _⟩ := hin.run (P := pass) (fun _ => rfl)
    (goesDown_checkedVars fun t => t ∈ checkedVars cat c.positive
      (selectFrom targetList relids quals) .root 0) (fun _ ht => ht) hpath
  have hcur : m.currentTrueVar = scope := hat.current rfl
  refine ⟨m, hm, dropsOwn_iff_ownEntries hat.visited.operands (hcur ▸ hat.resolves),
    fun hapart hneg hop v hv _ rv hrv hnullable hknown => ?_⟩
  obtain ⟨t, ht, hcol⟩ := hknown
  obtain ⟨h1, h2⟩ := Prod.mk.inj hcol
  rcases hat.known t ht with hnn | hseen
  · rw [h1, h2, hnullable] at hnn
    cases hnn
  · have hrv' : rv ∈ checkedVars cat m.positive (.opExpr opno args) scope rte := by
      rw [checkedVars, hneg, if_pos (by simpa using hop)]
      exact List.mem_filterMap.mpr ⟨.var v, hv, hcur ▸ hrv⟩
    have hpos : c.positive = positive := prep.positive
    rcases hapart rv (hpos ▸ hchecked rv hrv') with hnn | honly
    · rw [hnullable] at hnn
      cases hnn
    · exact honly t hseen hcol ▸ ht

/-- `r1.attno = 1 AND NOT EXISTS (SELECT FROM r r2 WHERE r2.a = 2)`, in a query over `r r1`. -/
def selfAntijoin (attno : Nat) : Node Int :=
  .boolExpr .andExpr [.opExpr 98 [.var ⟨1, attno, 0⟩, .const (some 1)],
    .boolExpr .notExpr [existsFrom [] [1] (.opExpr 98 [.var ⟨1, 1, 0⟩, .const (some 2)])]]

theorem selfAntijoin_cond {attno : Nat} (h1 : 1 ≤ attno) (h2 : attno ≤ 2) :
    Cond (Atom (Catalog.nullable 2)) True [[1]] (selfAntijoin attno) := by
  refine .and (by simp) ?_
  simp only [List.forall_mem_cons, List.not_mem_nil, false_imp_iff, implies_true, and_true]
  refine ⟨.leaf (.comparison ?_), .not (.inl trivial) (.exist (.leaf (.comparison ?_)))⟩
  · simp only [List.forall_mem_cons, List.not_mem_nil, false_imp_iff, implies_true, and_true]
    exact ⟨.column ⟨1, rfl, h1, h2⟩, .constant⟩
  · simp only [List.forall_mem_cons, List.not_mem_nil, false_imp_iff, implies_true, and_true]
    exact ⟨.column ⟨1, rfl, by decide, by decide⟩, .constant⟩

/-- For `r1.b = 1 AND NOT EXISTS (SELECT FROM r r2 WHERE r2.a = 2)`, where the two entries of `r`
have different columns compared. -/
theorem dropsOwn_iff_selfAntijoin :
    ∃ w c, myWalker (Catalog.nullable 2) (selectFrom [] [1] (selfAntijoin 2))
        makeContextWalkerSetConstraint = some w ∧ makeContextModifier true w = some c ∧
      ∀ path opno args, nodeAt path (selectFrom [] [1] (selfAntijoin 2)) =
          some (.opExpr opno args) →
        ∃ m, pass.mutatorAt path (selectFrom [] [1] (selfAntijoin 2)) c =
          some (.opExpr opno args, m) ∧ DropsOwn (Catalog.nullable 2) opno args m := by
  obtain ⟨w, c, hw, hc, hall⟩ := dropsOwn_iff (Catalog.nullable 2) [] [1] (selfAntijoin 2)
    (selfAntijoin_cond (by decide) (by decide)) true
  refine ⟨w, c, hw, hc, fun path opno args hpath => ?_⟩
  obtain ⟨m, hm, hiff, hapart⟩ := hall path opno args hpath
  exact ⟨m, hm, hiff.mpr (hapart (by decide))⟩

/-- At `r2.a = 2` of the condition `r1.a = 1 AND NOT EXISTS (SELECT FROM r r2 WHERE r2.a = 2)`: the
polarity, the true variable of the column, what is known, and whether the comparison is returned as
it is. -/
theorem selfAntijoin_run :
    (do
      let w ← myWalker (Catalog.nullable 2) (selectFrom [] [1] (selfAntijoin 1))
        makeContextWalkerSetConstraint
      let c ← makeContextModifier true w
      let (target, m) ← pass.mutatorAt [0, 1, 0, 1, 0] (selectFrom [] [1] (selfAntijoin 1)) c
      let rv ← getTrueVar m.currentTrueVar ⟨1, 1, 0⟩
      let (out, _) ← myMutator target m
      some (m.positive, rv, m.listOfNotNullInCurrent, out matches .opExpr _ _)) =
    some (false, ⟨1, 1, 1⟩, [⟨0, 1, 1⟩], true) := by
  decide +kernel

/-- In `r1.a = 1 AND NOT EXISTS (SELECT FROM r r2 WHERE r2.a = 2)` the check of `r2.a` is dropped,
for what is known of `r1.a`. -/
theorem dropsOwn_fails_selfAntijoin :
    ∃ w c m, myWalker (Catalog.nullable 2) (selectFrom [] [1] (selfAntijoin 1))
        makeContextWalkerSetConstraint = some w ∧ makeContextModifier true w = some c ∧
      pass.mutatorAt [0, 1, 0, 1, 0] (selectFrom [] [1] (selfAntijoin 1)) c =
        some (.opExpr 98 [.var ⟨1, 1, 0⟩, .const (some 2)], m) ∧
      ¬DropsOwn (Catalog.nullable 2) 98 [.var ⟨1, 1, 0⟩, .const (some 2)] m := by
  have hrun := selfAntijoin_run
  simp only [Option.bind_eq_bind, Option.bind_eq_some_iff, Option.some.injEq, Prod.mk.injEq] at hrun
  obtain ⟨w, hw, c, hc, ⟨target, m⟩, hm, rv, hrv, ⟨out, m'⟩, hout, hneg, hrv', hknown, hcopy⟩ :=
    hrun
  have htarget : some target = some (.opExpr 98 [.var ⟨1, 1, 0⟩, .const (some 2)]) :=
    (Pass.nodeAt_of_mutatorAt hm).symm
  cases htarget
  refine ⟨w, c, m, hw, hc, hm, fun h => ?_⟩
  obtain ⟨rv1, out1, m1, hrv1, hout1, hdrop⟩ := h hneg (by decide) ⟨1, 1, 0⟩ List.mem_cons_self
  cases hrv.symm.trans hrv1
  cases hout.symm.trans hout1
  have hno : ¬HasNullCheck ⟨1, 1, 0⟩ out := by
    cases out <;> first | exact id | cases hcopy
  rcases hdrop hno with hnn | hmem
  · cases hnn
  · rw [hknown, hrv'] at hmem
    revert hmem
    decide

end Infed.Codd
