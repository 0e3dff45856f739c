import Infed.Codd.Answers
import Infed.Codd.Negation
import Infed.Quantified

/-! Certain answers of queries with IN and NOT IN.  The mutator rewrites the test expression at the
polarity of the sub-link, with null checks for its columns; for a parameter it adds none.  So where
IN counts positively for being true, or negatively for being false, as in NOT IN, the rewriting is
sound; and a NULL in the sub-select is missed where IN counts negatively for being true. -/

namespace Infed.Codd

variable {α : Type} {cat : Catalog}

/-! ### Test expressions -/

section

variable {I : Interp α} {D D' : Database α} {os : Scopes} {ρ ρ' : Env α} {opno : Oid}
  {args : List (Node α)}

/-- Completing the rows, those of the sub-select included, changes no argument that is not NULL. -/
theorem completes_testOperand {a : Node α} (ha : TestOperand cat os a) (hρ : ρ.Rel Completes ρ')
    (hparam : Completes ρ.param ρ'.param) :
    evalScalar I D a ρ = none ∨ evalScalar I D' a ρ' = evalScalar I D a ρ := by
  cases ha with
  | param => exact forall₂_getD hparam (.inl rfl) _
  | operand ha =>
    cases ha with
    | @column v _ => exact Completes.column hρ v
    | constant => exact .inr rfl

/-- At both polarities, the rewritten comparison decides as the comparison itself does. -/
theorem eq_ofBool_of_leaf {p : Bool}
    (h : evalCond I D (leaf p (.opExpr opno args)) ρ = .ofBool p) :
    evalCond I D (.opExpr opno args) ρ = .ofBool p := by
  cases p with
  | true => exact h
  | false =>
    have hdisj : Kleene.disj (evalConds I D (args.flatMap nullCheck ++ [.opExpr opno args]) ρ) =
        .false := h
    rw [evalConds_eq_map, Kleene.disj_eq_false_iff, List.forall_mem_map] at hdisj
    exact hdisj _ (List.mem_append_right _ List.mem_cons_self)

/-- A comparison that is true at positive polarity, or false at negative polarity, has no NULL among
its arguments, parameters included. -/
theorem test_carries (hI : I.Strict opno) (hargs : ∀ a ∈ args, TestOperand cat os a)
    (hρ : ρ.Rel Completes ρ') (hparam : Completes ρ.param ρ'.param) (p : Bool) :
    Kleene.Carries p p (evalCond I D (leaf p (.opExpr opno args)) ρ)
      (evalCond I D' (.opExpr opno args) ρ') := by
  rw [Kleene.Carries, if_pos rfl]
  intro h
  have htest := eq_ofBool_of_leaf h
  rw [evalCond] at htest ⊢
  have hnn : none ∉ evalScalars I D args ρ := by
    intro hmem
    rw [hI _ hmem] at htest
    cases p <;> cases htest
  have hsame : evalScalars I D' args ρ' = evalScalars I D args ρ := by
    rw [evalScalars_eq_map] at hnn ⊢
    rw [evalScalars_eq_map]
    refine List.map_congr_left fun a ha => ?_
    exact (completes_testOperand (hargs a ha) hρ hparam).resolve_left fun hnull =>
      hnn (List.mem_map.mpr ⟨a, ha, hnull⟩)
  rw [hsame, htest]

end

/-! ### Conditions -/

mutual

/-- Whether every comparison counts as `enough` allows, and every IN for being true where it counts
positively and for being false where it counts negatively. -/
def countedIn : Bool → Bool → Node α → Bool
  | _, _, .null => true
  | p, s, .boolExpr .notExpr args => countedInList (!p) (!s) args
  | p, s, .boolExpr _ args => countedInList p s args
  | p, _, .subLink .existsSublink _ subselect => countedIn p true subselect
  | p, s, .subLink _ _ subselect => p == s && countedIn p true subselect
  | p, _, .query _ _ _ quals => countedIn p true quals
  | p, s, _ => enough p s

def countedInList : Bool → Bool → List (Node α) → Bool
  | _, _, [] => true
  | p, s, node :: nodes => countedIn p s node && countedInList p s nodes

end

theorem countedInList_eq_all (p s : Bool) (nodes : List (Node α)) :
    countedInList p s nodes = nodes.all (countedIn p s) := by
  induction nodes with
  | nil => rfl
  | cons node nodes ih => simp [countedInList, ih]

section

variable {I : Interp α} {D D' : Database α}

/-- Between a database and one that completes its rows, the rewritten condition stands for the
condition. -/
theorem translateIn_carries (hI : ∀ opno ∈ weakened, I.Strict opno)
    (hD : ∀ relid, List.Forall₂ Completes (D relid) (D' relid)) {os : Scopes} {a : Node α}
    (h : Quantified cat weakened os a) {p s : Bool} (hcount : countedIn p s a = true) {ρ ρ' : Env α}
    (hρ : ρ.Rel Completes ρ') :
    Kleene.Carries p s (evalCond I D (translateIn leaf p a) ρ) (evalCond I D' a ρ') := by
  induction h generalizing p s ρ ρ' with
  | leaf ha =>
    obtain ⟨hop, hargs, _⟩ := ha
    exact leaf_carries (hI _ hop) hargs hcount hρ
  | null => exact .refl p s _
  | and _ _ ih =>
    simp only [countedIn, countedInList_eq_all, List.all_eq_true] at hcount
    simp only [translateIn, translateInList_eq_map, evalCond]
    exact .conj (carries_args fun a ha => ih a ha (hcount a ha) hρ)
  | or _ _ ih =>
    simp only [countedIn, countedInList_eq_all, List.all_eq_true] at hcount
    simp only [translateIn, translateInList_eq_map, evalCond]
    exact .disj (carries_args fun a ha => ih a ha (hcount a ha) hρ)
  | not _ ih =>
    simp only [countedIn, countedInList, Bool.and_true] at hcount
    simp only [translateIn, translateInList, evalCond_not]
    exact (ih hcount hρ).not
  | @exist os targetList relids quals _ ih =>
    simp only [existsFrom, selectFrom, countedIn] at hcount
    have hexists := carries_existsFrom hD targetList relids
      fun _ _ _ hrel => ih hcount (hρ.push hrel)
    simp only [existsFrom, selectFrom, translateIn, evalCond] at hexists ⊢
    exact hexists.twoValued s
  | @any os testexpr targetList relids quals ha htarget _ ih =>
    simp only [anyFrom, selectFrom, countedIn, Bool.and_eq_true, beq_iff_eq] at hcount
    obtain ⟨rfl, hcount⟩ := hcount
    obtain ⟨hop, hargs, _⟩ := ha
    have hany := carries_anyFrom hD targetList relids
      (fun _ _ hrel => ih hcount (hρ.push hrel))
      fun _ _ hrel => test_carries (hI _ hop) hargs (hρ.withParam _ _)
        (completes_target htarget (hρ.push hrel)) p
    simpa only [anyFrom, selectFrom, translateIn] using hany

end

/-! ### Answers -/

theorem mutates_test_translateIn {os : Scopes} {a : Node α} (ha : Test cat weakened os a) :
    pass.Mutates Neutral (· = []) (· = []) (fun p _ a out => out = translateIn leaf p a)
      cat os a := by
  have hmutates := mutates_test ha
  obtain ⟨_, _, _⟩ := ha
  exact hmutates

/-- On a query without AND and OR, over tables in which nothing is declared NOT NULL, the mutator
knows nothing. -/
theorem emptied_eq_self {q : Node α} {seen : List TrueVar} {w : ContextWalkerSetConstraint}
    {c : ContextModifier α} (hnullable : ∀ relid attno, cat.attnotnull relid attno = false)
    (hw : myWalker cat q makeContextWalkerSetConstraint = some w)
    (start : Starts cat q seen true w c) (hbools : boolCount q = 0) : emptied c = c := by
  have hschema : w.listOfNotNullAttSchem = [] := by
    have hdeclares := pass.myWalker_declares q _ w hw
    have hnone : schema cat (pass.relations q) = [] :=
      List.flatMap_eq_nil_iff.mpr fun relid _ => by simp [hnullable]
    rw [Declares, hnone] at hdeclares
    simpa [makeContextWalkerSetConstraint] using hdeclares
  have hknown : c.listOfNotNullInCurrent = [] := start.known.trans hschema
  have hT : c.listListTrue = [] := List.eq_nil_of_length_eq_zero (start.lengthTrue.trans hbools)
  have hF : c.listListFalse = [] := List.eq_nil_of_length_eq_zero (start.lengthFalse.trans hbools)
  rw [emptied, hT, hF]
  cases c
  cases hknown
  cases hT
  cases hF
  rfl

/-- The whole run on a query with IN or NOT IN, with nothing known about NULLs: the rewritten query
returns certain answers only.  Where nothing is declared NOT NULL and there is no AND or OR, nothing
is known anyway. -/
theorem run_certain_in (cat : Catalog) (I : Interp α) (hI : ∀ opno ∈ weakened, I.Strict opno)
    (targetList : List (Node α)) (relids : List Oid) (quals : Node α)
    (htarget : ∀ t ∈ targetList, SimpleEntry t) (h : Quantified cat weakened [relids] quals)
    (hcount : countedIn true true quals = true) :
    ∃ w c q' c',
      myWalker cat (selectFrom targetList relids quals) makeContextWalkerSetConstraint = some w ∧
      makeContextModifier true w = some c ∧
      myMutator (selectFrom targetList relids quals) (emptied c) = some (q', c') ∧
      ((∀ relid attno, cat.attnotnull relid attno = false) → boolCount quals = 0 →
        emptied c = c) ∧
      ∀ (D : Database α) (v : Valuation α), CertainIn (evalQuery I D q' Env.empty)
        (evalQuery I (v.apply D) (selectFrom targetList relids quals) Env.empty) := by
  obtain ⟨w, seen, c, c', hw, hc, start, hrun⟩ :=
    Pass.run_translateIn (fun _ _ => mutates_test_translateIn) targetList h
  refine ⟨w, c, _, c', hw, hc, hrun, fun hnullable hbools => ?_, fun D v => ?_⟩
  · exact emptied_eq_self hnullable hw start
      ((boolCount_selectFrom targetList relids quals).trans hbools)
  · refine evalQuery_forall₂ (v.completes D) (fun ρ ρ' _ hρ htrue => ?_)
      (fun ρ ρ' hρ => completes_target htarget hρ)
    exact translateIn_carries hI (v.completes D) h hcount hρ htrue

/-- `v IN (SELECT a FROM relid)`. -/
def inTable (v : Var) (relid : Oid) : Node Int :=
  anyFrom (.opExpr 98 [.var v, .param 1]) [.targetEntry (.var ⟨1, 1, 0⟩) 1] [relid] .null

theorem inTable_quantified (relid r : Oid) (os : Scopes) :
    Quantified (Catalog.nullable 1) weakened ([r] :: os) (inTable ⟨1, 1, 0⟩ relid) := by
  refine .any (.mk (by decide) ?_ ⟨_, List.mem_cons_self⟩) (by simpa using .column) .null
  simp only [List.forall_mem_cons, List.not_mem_nil, false_imp_iff, implies_true, and_true]
  exact ⟨.operand (.column ⟨r, rfl, by decide, Nat.le_refl 1⟩), .param⟩

/-- `SELECT r.a FROM r WHERE NOT r.a IN (SELECT s.a FROM s)`, on rows of which the one with a NULL
is no certain answer. -/
theorem run_certain_in_notIn :
    ∃ w c q' c',
      myWalker (Catalog.nullable 1) (selectFrom [.targetEntry (.var ⟨1, 1, 0⟩) 1] [1]
        (.boolExpr .notExpr [inTable ⟨1, 1, 0⟩ 2])) makeContextWalkerSetConstraint = some w ∧
      makeContextModifier true w = some c ∧
      myMutator (selectFrom [.targetEntry (.var ⟨1, 1, 0⟩) 1] [1]
        (.boolExpr .notExpr [inTable ⟨1, 1, 0⟩ 2])) c = some (q', c') ∧
      ∀ v : Valuation Int, CertainIn
        (evalQuery intInterp (fun relid => if relid = 1 then [[some 1], [none]] else [[some 2]]) q'
          Env.empty)
        (evalQuery intInterp
          (v.apply fun relid => if relid = 1 then [[some 1], [none]] else [[some 2]])
          (selectFrom [.targetEntry (.var ⟨1, 1, 0⟩) 1] [1]
            (.boolExpr .notExpr [inTable ⟨1, 1, 0⟩ 2])) Env.empty) := by
  obtain ⟨w, c, q', c', hw, hc, hrun, hsame, hcertain⟩ := run_certain_in (Catalog.nullable 1)
    intInterp (fun _ _ => intInterp_strict _) [.targetEntry (.var ⟨1, 1, 0⟩) 1] [1]
    (.boolExpr .notExpr [inTable ⟨1, 1, 0⟩ 2]) (by simpa using .column)
    (.not (inTable_quantified 2 1 [])) (by decide)
  rw [hsame (fun _ _ => rfl) (by decide)] at hrun
  exact ⟨w, c, q', c', hw, hc, hrun, hcertain _⟩

/-- `SELECT FROM r WHERE NOT EXISTS (SELECT FROM s WHERE s.a IN (SELECT t.a FROM t))`, with a NULL
for `t.a`: the rewritten query returns a row that the query does not return where the NULL stands
for `s.a`. -/
theorem in_below_notExists :
    rowsWithNothingKnown (Catalog.nullable 1)
        (selectFrom [] [1] (.boolExpr .notExpr [existsFrom [] [2] (inTable ⟨1, 1, 0⟩ 3)]))
        (fun relid => if relid = 3 then [[none]] else [[some 1]]) = some [[]] ∧
    evalQuery intInterp (Valuation.apply (fun _ _ _ => 1)
        fun relid => if relid = 3 then [[none]] else [[some 1]])
        (selectFrom [] [1] (.boolExpr .notExpr [existsFrom [] [2] (inTable ⟨1, 1, 0⟩ 3)]))
        Env.empty = [] :=
  ⟨by decide +kernel, by decide +kernel⟩

end Infed.Codd
