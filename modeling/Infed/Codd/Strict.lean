import Infed.Codd.Local
import Infed.Codd.Negation

/-! Comparisons that reject NULLs.  The walker takes every `OpExpr` for one, but the mutator asks
for checks only at a list of operators.  A comparison at negative polarity with another operator is
copied, and is not true where one of its columns is NULL, unless a comparison before it has left the
flag `ready` set. -/

namespace Infed.Codd

variable {α : Type} {cat : Catalog} {os : Scopes}

/-- For every meaning of the operators in which the one of the comparison is strict, `out` is true
wherever a column of the comparison is NULL that is not known in the context `m`. -/
def TrueOnNulls (m : ContextModifier α) (opno : Oid) (args : List (Node α)) (out : Node α) :
    Prop :=
  ∀ (I : Interp α) (D : Database α) (ρ : Env α) (v : Var), I.Strict opno →
    v ∈ columnsInList args → unknown m v = true → ρ.column v = none → evalCond I D out ρ = .true

/-- Checks are asked for at the comparison, and it takes them. -/
def TakesChecks (m : ContextModifier α) (opno : Oid) (args : List (Node α)) : Prop :=
  (m.ready || weakened.contains opno) = true ∧
    settled (unknown m) (!m.constraintToAdd.isEmpty) args = true

section

variable {c c' : ContextModifier α} {opno : Oid} {args outs : List (Node α)} {out : Node α}

/-- Operators that are never true are strict. -/
theorem not_trueOnNulls_opExpr (h : (columnsInList args).any (unknown c) = true) :
    ¬TrueOnNulls c opno args (.opExpr opno outs) := by
  intro htrue
  obtain ⟨v, hv, hunknown⟩ := List.any_eq_true.mp h
  have h := htrue ⟨fun _ _ => .unknown, fun _ _ => none⟩ (fun _ => []) Env.empty v
    (fun _ _ => rfl) hv hunknown rfl
  simp [evalCond] at h

theorem trueOnNulls_checks (checks : List (Node α)) :
    TrueOnNulls c opno args (.boolExpr .orExpr
      (checks ++ checksOf (unknown c) (columnsInList args) ++ [.opExpr opno args])) := by
  intro I D ρ v _ hv hunknown hnull
  rw [evalCond_or_eq_true]
  refine ⟨isNull v, ?_, by simp [isNull, evalCond, evalScalar, hnull]⟩
  have hcheck : (isNull v : Node α) ∈ checksOf (unknown c) (columnsInList args) :=
    List.mem_map_of_mem (List.mem_filter.mpr ⟨hv, hunknown⟩)
  simp [hcheck]

/-- A comparison at negative polarity comes to be true on NULLs exactly if it takes checks for its
columns or has no column to check. -/
theorem comparison_trueOnNulls_iff (hargs : ∀ a ∈ args, Arith cat os a)
    (hs : c.currentTrueVar.Resolves cat os) (hneg : c.positive = false)
    (hasked : Asked c.ready c.constraintToAdd)
    (hrun : pass.myMutator (.opExpr opno args) c = some (out, c')) :
    TrueOnNulls c opno args out ↔
      ((columnsInList args).any (unknown c) = true → TakesChecks c opno args) := by
  cases hany : (columnsInList args).any (unknown c) with
  | false =>
    refine iff_of_true (fun _ _ _ v _ hv hunknown => ?_) fun h => Bool.noConfusion h
    exact absurd hunknown (List.any_eq_false.mp hany v hv)
  | true =>
    rw [forall_prop_of_true rfl]
    by_cases hasks : (c.ready || weakened.contains opno) = true
    · have hgathers := myMutator_opExpr_gathers opno (fun a ha => (hargs a ha).gathers) hargs hs
        hneg hasks
      simp only [append_checksOf_isEmpty] at hgathers
      rw [hany, Bool.or_true, Bool.not_true, if_neg Bool.false_ne_true] at hgathers
      split at hgathers
      · next hsettled =>
        cases hgathers.symm.trans hrun
        exact iff_of_true (trueOnNulls_checks _) ⟨hasks, hsettled⟩
      · next hsettled =>
        obtain ⟨outs, _, hgathers⟩ := hgathers
        cases hgathers.symm.trans hrun
        exact iff_of_false (not_trueOnNulls_opExpr hany) fun h => hsettled h.2
    · -- nothing is asked for, and the comparison is copied
      obtain ⟨hready, hop⟩ := Bool.or_eq_false_iff.mp (Bool.not_eq_true _ ▸ hasks)
      have hcopied : pass.myMutator (.opExpr opno args) c = some (.opExpr opno args, c) :=
        myMutator_opExpr_copied opno (fun a ha => (hargs a ha).copied hready (hasked hready))
          (hasked hready) (.inr (by simpa using hop))
      cases hcopied.symm.trans hrun
      exact iff_of_false (not_trueOnNulls_opExpr hany) fun h => hasks h.1

end

/-- In the run on a query, each comparison below an odd number of NOTs, or an even number in a run
that starts at negative polarity, comes to be true wherever a column that is not known is NULL
exactly if it has no such column, or checks are asked for when the mutator comes to it, by its own
operator or by a comparison before it, and no arithmetic among its arguments takes them. -/
theorem trueOnNulls_iff (cat : Catalog) (targetList : List (Node α)) (relids : List Oid)
    (quals : Node α) (h : Cond (ArithAtom cat) True [relids] quals) (c : ContextModifier α)
    (hc : Fresh cat (selectFrom targetList relids quals) c) :
    ∃ q' c', myMutator (selectFrom targetList relids quals) c = some (q', c') ∧
      ∀ path opno args, through path (selectFrom targetList relids quals) = true →
        nodeAt path (selectFrom targetList relids quals) = some (.opExpr opno args) →
        polarityAt path (selectFrom targetList relids quals) c.positive = false →
        ∃ m out m', pass.mutatorAt path (selectFrom targetList relids quals) c =
            some (.opExpr opno args, m) ∧
          myMutator (.opExpr opno args) m = some (out, m') ∧ nodeAt path q' = some out ∧
          (TrueOnNulls m opno args out ↔
            ((columnsInList args).any (unknown m) = true → TakesChecks m opno args)) := by
  obtain ⟨⟨q', c', hrun⟩, hreaches⟩ := fresh_returns hc h
  refine ⟨q', c', hrun, fun path opno args hthrough hpath hpolarity => ?_⟩
  obtain ⟨m, out, m', hm, hrun', hnode⟩ := Pass.myMutator_at hrun hpath hthrough
  have hcomes := hreaches path _ m hthrough rfl hm
  refine ⟨m, out, m', hm, hrun', hnode, ?_⟩
  cases hcomes.atom with
  | comparison hargs =>
    exact comparison_trueOnNulls_iff hargs hcomes.resolves (hcomes.positive.trans hpolarity)
      hcomes.flags hrun'

/-- `SELECT FROM r WHERE NOT EXISTS (SELECT FROM s WHERE s.a = r.a)`, for an operator `=`. -/
def antijoin (opno : Oid) : Node Int :=
  selectFrom [] [1] (.boolExpr .notExpr [existsFrom [] [2] (joined opno)])

theorem antijoin_cond (opno : Oid) :
    Cond (Atom (Catalog.nullable 1)) True [[1]] (antijoin opno).quals := by
  refine .not (.inr rfl) (.exist (.leaf (.comparison ?_)))
  simp only [List.forall_mem_cons, List.not_mem_nil, false_imp_iff, implies_true, and_true]
  exact ⟨.column ⟨2, rfl, by decide, by decide⟩, .column ⟨1, rfl, by decide, by decide⟩⟩

/-- For a whole run. -/
theorem trueOnNulls_iff_antijoin :
    ∃ w c, myWalker (Catalog.nullable 1) (antijoin 96) makeContextWalkerSetConstraint = some w ∧
      makeContextModifier true w = some c ∧
      ∃ q' c', myMutator (antijoin 96) c = some (q', c') ∧
        ∀ path opno args, through path (antijoin 96) = true →
          nodeAt path (antijoin 96) = some (.opExpr opno args) →
          polarityAt path (antijoin 96) c.positive = false →
          ∃ m out m', pass.mutatorAt path (antijoin 96) c = some (.opExpr opno args, m) ∧
            myMutator (.opExpr opno args) m = some (out, m') ∧ nodeAt path q' = some out ∧
            (TrueOnNulls m opno args out ↔
              ((columnsInList args).any (unknown m) = true → TakesChecks m opno args)) := by
  obtain ⟨w, hw, hmake⟩ := pass.prepares [] (antijoin_cond 96)
  obtain ⟨c, hc, prep⟩ := hmake true
  exact ⟨w, c, hw, hc, trueOnNulls_iff (Catalog.nullable 1) [] [1] _
    ((antijoin_cond 96).mono (fun _ _ => ArithAtom.of_atom) id) c prep.fresh⟩

theorem contextAt_antijoin :
    (contextAt (Catalog.nullable 1) (antijoin 96) [0, 0, 1, 0]).map (fun x =>
      unknown x.2 ⟨1, 1, 0⟩) = some true := by
  decide +kernel

theorem outcomeAt_antijoin :
    (outcomeAt (Catalog.nullable 1) (antijoin 96) [0, 0, 1, 0]).map (fun x =>
        evalCond intInterp oneUnknown x.1 (envAt oneUnknown [[2], [1]] [[0], [0]])) =
      some .unknown := by
  decide +kernel

/-- With the `=` of integers, 96, the comparison is unknown where `s.a` is NULL, and the query
returns a row that it does not return when the NULL stands for 1. -/
theorem trueOnNulls_fails :
    (∃ w c m out m',
      myWalker (Catalog.nullable 1) (antijoin 96) makeContextWalkerSetConstraint = some w ∧
      makeContextModifier true w = some c ∧
      polarityAt [0, 0, 1, 0] (antijoin 96) c.positive = false ∧
      pass.mutatorAt [0, 0, 1, 0] (antijoin 96) c = some (joined 96, m) ∧
      myMutator (joined 96) m = some (out, m') ∧
      ¬TrueOnNulls m 96 [.var ⟨1, 1, 0⟩, .var ⟨1, 1, 1⟩] out) ∧
    rowsWithNothingKnown (Catalog.nullable 1) (antijoin 96) oneUnknown = some [[]] ∧
    evalQuery intInterp (Valuation.apply (fun _ _ _ => 1) oneUnknown) (antijoin 96) Env.empty =
      [] := by
  refine ⟨?_, by decide +kernel, by decide +kernel⟩
  have hpath : nodeAt [0, 0, 1, 0] (antijoin 96) = some (joined 96) := rfl
  obtain ⟨w, c, _, _, m, out, m', hw, hc, prep, _, hm, hrun, hcontext, houtcome⟩ :=
    outcomeAt_eq (antijoin_cond 96) hpath rfl
  refine ⟨w, c, m, out, m', hw, hc, by rw [prep.positive]; rfl, hm, hrun, fun htrue => ?_⟩
  have hcontext' : contextAt (Catalog.nullable 1) (antijoin 96) [0, 0, 1, 0] =
      some (joined 96, m) := hcontext
  have houtcome' : outcomeAt (Catalog.nullable 1) (antijoin 96) [0, 0, 1, 0] = some (out, m') :=
    houtcome
  have hunknown := contextAt_antijoin
  rw [hcontext', Option.map_some, Option.some.injEq] at hunknown
  have hvalue := outcomeAt_antijoin
  rw [houtcome', Option.map_some, Option.some.injEq] at hvalue
  have h := htrue intInterp oneUnknown (envAt oneUnknown [[2], [1]] [[0], [0]]) ⟨1, 1, 0⟩
    (intInterp_strict 96) (by decide) hunknown rfl
  rw [hvalue] at h
  cases h

end Infed.Codd
