import Infed.Codd.Certain

/-! Over-approximation under general negation.  A comparison at positive polarity is copied, and is
unknown where one of its columns is NULL.  That is enough where the query depends on the comparison
being true.  Below a NOT in a condition at negative polarity, it depends on the comparison being
false, and NOT of the copy is not true where it should be. -/

namespace Infed.Codd

variable {α : Type} {cat : Catalog}

/-- What a comparison at polarity `p` may count for: where it is copied, not for being false. -/
def enough (p s : Bool) : Bool := !p || s

section

variable {I : Interp α} {D D' : Database α} {os : Scopes} {ρ ρ' : Env α} {opno : Oid}
  {args : List (Node α)}

/-- A weakened comparison is false only if no column is NULL, and then completing the rows changes
nothing. -/
theorem leaf_false_sound (hargs : ∀ a ∈ args, Operand cat os a) (hρ : ρ.Rel Completes ρ')
    (h : evalCond I D (leaf false (.opExpr opno args)) ρ = .false) :
    evalCond I D' (.opExpr opno args) ρ' = .false := by
  rw [leaf, if_neg Bool.false_ne_true, evalCond, evalConds_eq_map, Kleene.disj_eq_false_iff] at h
  simp only [List.forall_mem_map, List.forall_mem_append, List.forall_mem_singleton] at h
  obtain ⟨hchecks, hop⟩ := h
  have hnn : ∀ v, .var v ∈ args → ρ.column v ≠ none := by
    intro v hv hnull
    have hcheck := hchecks (isNull v) (List.mem_flatMap.mpr ⟨.var v, hv, by simp [nullCheck]⟩)
    simp [isNull, evalCond, evalScalar, hnull] at hcheck
  simp only [evalCond] at hop ⊢
  rw [evalScalars_completes hargs hρ hnn]
  exact hop

theorem leaf_carries (hI : I.Strict opno) (hargs : ∀ a ∈ args, Operand cat os a) {p s : Bool}
    (hok : enough p s = true) (hρ : ρ.Rel Completes ρ') :
    Kleene.Carries p s (evalCond I D (leaf p (.opExpr opno args)) ρ)
      (evalCond I D' (.opExpr opno args) ρ') := by
  cases p with
  | true =>
    obtain rfl : s = true := by simpa [enough] using hok
    exact leaf_true_sound hI hargs hρ
  | false =>
    cases s with
    | true => exact leaf_false_complete hargs hρ
    | false => exact leaf_false_sound hargs hρ

end

/-- Between a database and a completion of it, the translation of a condition carries what no
comparison that is copied would have to be false for. -/
theorem translate_carries_completes {I : Interp α} (hI : ∀ opno ∈ weakened, I.Strict opno)
    {os : Scopes} {H : Node α} (h : Cond (Comparison cat weakened) True os H) {p s : Bool}
    (hcount : counted enough p s H = true) (D : Database α) (v : Valuation α)
    (kss : List (List Nat)) :
    Kleene.Carries p s (evalCond I D (translate leaf p H) (envAt D os kss))
      (evalCond I (v.apply D) H (envAt (v.apply D) os kss)) := by
  refine translate_carries (v.completes D) (fun _ _ ha => by cases ha; exact ⟨_, _, rfl⟩) ?_ h
    hcount (envAt_rel (v.completes D) .nil os kss)
  rintro os a ⟨hop, hargs, _⟩ p s hok ρ ρ' hρ
  exact leaf_carries (hI _ hop) hargs hok hρ

theorem evalQuery_eq_nil {I : Interp α} {D : Database α} {targetList : List (Node α)}
    {relids : List Oid} {quals : Node α} {ρ : Env α}
    (h : evalCond I D (existsFrom targetList relids quals) ρ = .false) :
    evalQuery I D (selectFrom targetList relids quals) ρ = [] := by
  rw [existsFrom, evalCond, Kleene.ofBool_eq_false, Bool.not_eq_false', List.isEmpty_iff] at h
  exact h

/-- The rewriting of a condition at negative polarity is true wherever the condition is true in some
completion of the database, and NOT EXISTS is kept only if the sub-select is empty in all of them,
provided that no comparison is copied that counts for being false: in each WHERE at negative
polarity, every comparison is below an even number of NOTs. -/
theorem negation_overapproximates (cat : Catalog) (I : Interp α)
    (hI : ∀ opno ∈ weakened, I.Strict opno) (os : Scopes) (H : Node α)
    (h : Cond (Comparison cat weakened) True os H) (hcount : counted enough false true H = true) :
    (∀ (c : ContextModifier α) (rte : Nat), c.positive = false →
      c.currentTrueVar.Resolves cat os →
      AtPart (· = []) (queryScopes cat H c.currentTrueVar rte) (boolCount H) c →
      c.listOfNotNullInCurrent = [] → Neutral c.ready c.constraintToAdd →
      ∃ H' c', myMutator H c = some (H', c') ∧ Approximates I false os H H') ∧
    ∀ (targetList : List (Node α)) (relids : List Oid) (os' : Scopes) (c : ContextModifier α)
      (rte : Nat), os = relids :: os' → c.positive = true → c.currentTrueVar.Resolves cat os' →
      AtPart (· = []) (queryScopes cat (existsFrom targetList relids H) c.currentTrueVar rte)
        (boolCount H) c →
      c.listOfNotNullInCurrent = [] → Neutral c.ready c.constraintToAdd →
      ∃ q' c', myMutator (.boolExpr .notExpr [existsFrom targetList relids H]) c =
          some (q', c') ∧
        ∀ (D : Database α) (v : Valuation α) (kss : List (List Nat)),
          evalCond I D q' (envAt D os' kss) = .true →
          evalQuery I (v.apply D) (selectFrom targetList relids H) (envAt (v.apply D) os' kss) =
            [] := by
  constructor
  · intro c rte hneg hs hat hknown hflags
    obtain ⟨out, r, ks, hrun, _, rfl⟩ :=
      Pass.mutates_translate (fun _ _ => mutates_comparison) h c rte hs hat hflags hknown
    rw [hneg] at hrun
    exact ⟨_, _, hrun, translate_carries_completes hI h hcount⟩
  · rintro targetList relids os' c rte rfl hpos hs hat hknown hflags
    have hexists : Cond (Comparison cat weakened) True os' (existsFrom targetList relids H) :=
      .exist h
    have hnot : Cond (Comparison cat weakened) True os'
        (.boolExpr .notExpr [existsFrom targetList relids H]) := .not (.inr rfl) hexists
    have hat' : AtPart (· = []) (queryScopes cat
        (.boolExpr .notExpr [existsFrom targetList relids H]) c.currentTrueVar rte)
        (boolCount (.boolExpr .notExpr [existsFrom targetList relids H])) c := by
      simpa [queryScopes, queryScopesList, boolCount, boolCountList, existsFrom, selectFrom]
        using hat
    obtain ⟨out, r, ks, hrun, _, rfl⟩ :=
      Pass.mutates_translate (fun _ _ => mutates_comparison) hnot c rte hs hat' hflags hknown
    rw [hpos] at hrun
    refine ⟨_, _, hrun, fun D v kss htrue => evalQuery_eq_nil ?_⟩
    -- the sub-select counts negatively, and for being empty
    have hcount' : counted enough false false (existsFrom targetList relids H) = true := by
      rw [counted_existsFrom]
      exact hcount
    simp only [translate, translateList, evalCond_not, Kleene.not_eq_true] at htrue
    exact translate_carries_completes hI hexists hcount' D v kss htrue

/-- The mutator's context in the WHERE of a sub-select over `s` of a query over `r`, with nothing
known; the queries further in have the scopes `inner`. -/
def inSubselect (positive : Bool) (inner : List Scope) : ContextModifier Int where
  positive
  ready := false
  constraintToAdd := []
  trueVars := inner
  currentTrueVar :=
    (Scope.root.enter (Catalog.nullable 1) 0 [1]).enter (Catalog.nullable 1) 1 [2]
  listOfNotNullInCurrent := []
  listListTrue := []
  listListFalse := []
  whereIAm := 0
  whereIAmQuerry := 0

theorem inSubselect_resolves (positive : Bool) (inner : List Scope) :
    (inSubselect positive inner).currentTrueVar.Resolves (Catalog.nullable 1) [[2], [1]] :=
  ((Scope.resolves_root _).enter 0 [1]).enter 1 [2]

/-- `t.a = s.a` below a NOT, in a sub-select over `t`. -/
def differs : Node Int := .boolExpr .notExpr [joined 98]

theorem differs_cond (t s : Oid) (os : Scopes) :
    Cond (Comparison (Catalog.nullable 1) weakened) True ([t] :: [s] :: os) differs :=
  .not (.inl trivial) (.leaf (joined_comparison (by decide) t s (by decide)))

/-- For `NOT EXISTS (SELECT FROM t WHERE NOT (t.a = s.a))` in a sub-select over `s`, and for a
sub-select over `u` with this WHERE for `u` in the place of `s`. -/
theorem negation_overapproximates_division :
    (∃ H' c', myMutator (.boolExpr .notExpr [existsFrom [] [3] differs])
        (inSubselect false (queryScopes (Catalog.nullable 1) (existsFrom [] [3] differs)
          (inSubselect false []).currentTrueVar 2)) = some (H', c') ∧
      Approximates intInterp false [[2], [1]] (.boolExpr .notExpr [existsFrom [] [3] differs])
        H') ∧
    ∃ q' c', myMutator (.boolExpr .notExpr [existsFrom [] [2]
        (.boolExpr .notExpr [existsFrom [] [3] differs])])
        { inSubselect true (queryScopes (Catalog.nullable 1) (existsFrom [] [2]
            (.boolExpr .notExpr [existsFrom [] [3] differs]))
            (Scope.root.enter (Catalog.nullable 1) 0 [1]) 1) with
          currentTrueVar := Scope.root.enter (Catalog.nullable 1) 0 [1] } = some (q', c') ∧
      ∀ (D : Database Int) (v : Valuation Int) (kss : List (List Nat)),
        evalCond intInterp D q' (envAt D [[1]] kss) = .true →
        evalQuery intInterp (v.apply D)
          (selectFrom [] [2] (.boolExpr .notExpr [existsFrom [] [3] differs]))
          (envAt (v.apply D) [[1]] kss) = [] := by
  have hthm := negation_overapproximates (Catalog.nullable 1) intInterp
    (fun _ _ => intInterp_strict _) [[2], [1]] (.boolExpr .notExpr [existsFrom [] [3] differs])
    (.not (.inl trivial) (.exist (differs_cond 3 2 [[1]]))) (by decide)
  refine ⟨hthm.1 _ 2 rfl (inSubselect_resolves _ _) ?_ rfl ⟨rfl, rfl⟩,
    hthm.2 [] [2] [[1]] _ 1 rfl rfl ((Scope.resolves_root _).enter 0 [1]) ?_ rfl ⟨rfl, rfl⟩⟩
  · exact ⟨⟨[], rfl⟩, by decide, rfl, by simp [inSubselect], by simp [inSubselect]⟩
  · exact ⟨⟨[], rfl⟩, by decide, rfl, by simp [inSubselect], by simp [inSubselect]⟩

/-- The rows of a query after a whole run with every list emptied. -/
def rowsWithNothingKnown (cat : Catalog) (q : Node Int) (D : Database Int) :
    Option (List (Row Int)) := do
  let w ← myWalker cat q makeContextWalkerSetConstraint
  let c ← makeContextModifier true w
  let (q', _) ← myMutator q (emptied c)
  some (evalQuery intInterp D q' Env.empty)

/-- `r.a` is 1 and `s.a` is NULL. -/
def oneUnknown : Database Int := fun relid => if relid = 1 then [[some 1]] else [[none]]

/-- For `NOT (s.a = r.a)` at negative polarity, where the NULL stands for 2; and `SELECT FROM r
WHERE NOT EXISTS (SELECT FROM s WHERE NOT (s.a = r.a))` returns a row that it does not return
then. -/
theorem negation_overapproximates_fails :
    (∃ H' c', myMutator differs (inSubselect false []) = some (H', c') ∧
      ¬Approximates intInterp false [[2], [1]] differs H') ∧
    rowsWithNothingKnown (Catalog.nullable 1)
        (selectFrom [] [1] (.boolExpr .notExpr [existsFrom [] [2] differs])) oneUnknown =
      some [[]] ∧
    evalQuery intInterp (Valuation.apply (fun _ _ _ => 2) oneUnknown)
        (selectFrom [] [1] (.boolExpr .notExpr [existsFrom [] [2] differs])) Env.empty = [] := by
  refine ⟨⟨differs, inSubselect false [], rfl, fun h => ?_⟩, by decide +kernel, by decide +kernel⟩
  have htrue := h oneUnknown (fun _ _ _ => 2) [[0], [0]]
  revert htrue
  decide +kernel

end Infed.Codd
