import Infed.Codd.Pass
import Infed.Run
import Infed.Translate

/-! The Codd translation returns certain answers only.  With nothing known about NULLs, `my_mutator`
computes a translation at a polarity: a comparison stays as it is where it counts positively, and
where it counts negatively it also holds when one of its columns is NULL.  So a rewritten condition
is true only if the condition is true whatever the NULLs stand for, and at negative polarity
whenever it is true for some choice of what they stand for. -/

namespace Infed.Codd

variable {α : Type} {cat : Catalog}

/-! ### Valuations -/

/-- A constant for each place of each row of each relation, to stand for a NULL found there. -/
abbrev Valuation (α : Type) := Oid → Nat → Nat → α

/-- The database with every NULL replaced. -/
def Valuation.apply (v : Valuation α) (D : Database α) : Database α := fun relid =>
  (D relid).mapIdx fun i row => row.mapIdx fun j x => some (x.getD (v relid i j))

/-- A row and what it can stand for: a value that is not NULL stays. -/
def Completes : Row α → Row α → Prop := List.Forall₂ fun x y => x = none ∨ y = x

theorem Valuation.completes (v : Valuation α) (D : Database α) (relid : Oid) :
    List.Forall₂ Completes (D relid) (v.apply D relid) := by
  rw [List.forall₂_iff_get]
  refine ⟨by simp [Valuation.apply], fun i h1 h2 => ?_⟩
  simp only [Completes, List.forall₂_iff_get, Valuation.apply, List.get_eq_getElem,
    List.getElem_mapIdx, List.length_mapIdx, true_and]
  intro j h1 h2
  cases (D relid)[i][j] <;> simp

/-! ### Comparisons -/

theorem Completes.column {ρ ρ' : Env α} (hρ : ρ.Rel Completes ρ') (v : Var) :
    ρ.column v = none ∨ ρ'.column v = ρ.column v :=
  forall₂_getD (hρ.row .nil v.varlevelsup v.varno) (.inl rfl) (v.varattno - 1)

/-- The null check of an argument of a comparison. -/
def nullCheck : Node α → List (Node α)
  | .var v => [isNull v]
  | _ => []

/-- The comparison at a polarity: where it counts negatively it also holds when one of its columns
is NULL. -/
def leaf (p : Bool) : Node α → Node α
  | .opExpr opno args =>
    if p then .opExpr opno args
    else .boolExpr .orExpr (args.flatMap nullCheck ++ [.opExpr opno args])
  | a => a

section

variable {I : Interp α} {D D' : Database α} {os : Scopes} {ρ ρ' : Env α} {opno : Oid}
  {args : List (Node α)}

/-- Where no column is NULL, completing the rows changes no argument. -/
theorem evalScalars_completes (hargs : ∀ a ∈ args, Operand cat os a) (hρ : ρ.Rel Completes ρ')
    (hnn : ∀ v, .var v ∈ args → ρ.column v ≠ none) :
    evalScalars I D' args ρ' = evalScalars I D args ρ := by
  rw [evalScalars_eq_map, evalScalars_eq_map]
  refine List.map_congr_left fun a ha => ?_
  cases hargs a ha with
  | constant => rfl
  | @column v _ => exact (Completes.column hρ v).resolve_left (hnn v ha)

theorem leaf_true_sound (hI : I.Strict opno) (hargs : ∀ a ∈ args, Operand cat os a)
    (hρ : ρ.Rel Completes ρ') (h : evalCond I D (leaf true (.opExpr opno args)) ρ = .true) :
    evalCond I D' (.opExpr opno args) ρ' = .true := by
  simp only [leaf, if_true, evalCond] at h ⊢
  rw [evalScalars_completes hargs hρ]
  · exact h
  · intro v hv hnull
    have hmem : none ∈ evalScalars I D args ρ := by
      rw [evalScalars_eq_map]
      exact List.mem_map.mpr ⟨.var v, hv, hnull⟩
    rw [hI _ hmem] at h
    cases h

theorem leaf_false_complete (hargs : ∀ a ∈ args, Operand cat os a) (hρ : ρ.Rel Completes ρ')
    (h : evalCond I D' (.opExpr opno args) ρ' = .true) :
    evalCond I D (leaf false (.opExpr opno args)) ρ = .true := by
  rw [leaf, if_neg (by simp), evalCond_or_eq_true]
  by_cases hnn : ∀ v, .var v ∈ args → ρ.column v ≠ none
  · refine ⟨.opExpr opno args, by simp, ?_⟩
    simp only [evalCond] at h ⊢
    rwa [← evalScalars_completes hargs hρ hnn]
  · push Not at hnn
    obtain ⟨v, hv, hnull⟩ := hnn
    refine ⟨isNull v, ?_, ?_⟩
    · exact List.mem_append_left _ (List.mem_flatMap.mpr ⟨.var v, hv, by simp [nullCheck]⟩)
    · simp [isNull, evalCond, evalScalar, hnull, Kleene.ofBool_eq_true]

end

/-! ### The mutator with nothing known -/

/-- With nothing known, the mutator leaves its flags as they were after each comparison and
computes the translation. -/
theorem mutates_test {os : Scopes} {a : Node α} (ha : Test cat weakened os a) :
    pass.Mutates Neutral (· = []) (· = []) (fun p _ a out => out = translate leaf p a)
      cat os a := by
  cases ha with
  | @mk opno args hop hargs hcolumn =>
  intro c rte hs _ hJ hK
  obtain ⟨hready, hchecks⟩ := hJ
  simp only [queryScopes, boolCount, List.length_nil]
  rw [pass.myMutator_test rfl hargs hs, Pass.ownChecks, hchecks, hready]
  cases hp : c.positive with
  | true =>
    exact ⟨.opExpr opno args, false, [], by simp [pass], ⟨rfl, rfl⟩, by simp [translate, leaf]⟩
  | false =>
    have hown : args.flatMap (pass.operandChecks c) = args.flatMap nullCheck := by
      refine List.flatMap_congr fun a ha => ?_
      cases hargs a ha with
      | operand ha =>
        cases ha with
        | constant => rfl
        | column hv =>
          obtain ⟨t, ht, _⟩ := getTrueVar_of_inScope hs hv
          simp [Pass.operandChecks, nullCheck, ht, hK, isInListTrueVar, pass]
      | param => rfl
    have hne : (args.flatMap nullCheck).isEmpty = false := by
      obtain ⟨v, hv⟩ := hcolumn
      have hin : isNull v ∈ args.flatMap nullCheck :=
        List.mem_flatMap.mpr ⟨.var v, hv, by simp [nullCheck]⟩
      exact List.isEmpty_eq_false_iff.mpr (List.ne_nil_of_mem hin)
    have hweak : pass.checks (α := α) false opno = true := by simp [pass, hop]
    refine ⟨leaf false (.opExpr opno args), false, [], ?_, ⟨rfl, rfl⟩, rfl⟩
    simp [hweak, hown, hne, leaf, show pass.connective (α := α) false = some .orExpr from rfl]

theorem mutates_comparison {os : Scopes} {a : Node α} (ha : Comparison cat weakened os a) :
    pass.Mutates Neutral (· = []) (· = []) (fun p _ a out => out = translate leaf p a)
      cat os a :=
  mutates_test ha.test

/-! ### Soundness -/

/-- `H'` is true only where `H` is true in every completion of the database, or, at negative
polarity, wherever `H` is true in some completion. -/
def Approximates (I : Interp α) (positive : Bool) (os : Scopes) (H H' : Node α) : Prop :=
  ∀ (D : Database α) (v : Valuation α) (kss : List (List Nat)),
    if positive then
      evalCond I D H' (envAt D os kss) = .true →
        evalCond I (v.apply D) H (envAt (v.apply D) os kss) = .true
    else
      evalCond I (v.apply D) H (envAt (v.apply D) os kss) = .true →
        evalCond I D H' (envAt D os kss) = .true

theorem approximates_translate {I : Interp α} (hI : ∀ opno ∈ weakened, I.Strict opno) {os : Scopes}
    {a : Node α} (h : Cond (Comparison cat weakened) False os a) (p : Bool) :
    Approximates I p os a (translate leaf p a) := by
  intro D v kss
  have hsound := translate_sound (v.completes D) (fun _ _ ha => by cases ha; exact ⟨_, _, rfl⟩)
    (fun _ _ ha _ _ hρ => by
      obtain ⟨hop, hargs, _⟩ := ha
      exact leaf_true_sound (hI _ hop) hargs hρ)
    (fun _ _ ha _ _ hρ => by
      obtain ⟨_, hargs, _⟩ := ha
      exact leaf_false_complete hargs hρ) h
    (envAt_rel (v.completes D) .nil os kss)
  cases p
  · exact hsound.2
  · exact hsound.1

/-- The rewriting approximates, at both polarities and in every context with nothing known; and so
does the WHERE of a query after a run of the walker and the mutator. -/
theorem myMutator_approximates (cat : Catalog) (I : Interp α)
    (hI : ∀ opno ∈ weakened, I.Strict opno) :
    (∀ (targetList : List (Node α)) (relids : List Oid) (quals : Node α),
      Cond (Comparison cat weakened) False [relids] quals →
      ∃ w c quals' c',
        myWalker cat (selectFrom targetList relids quals) makeContextWalkerSetConstraint = some w ∧
        makeContextModifier true w = some c ∧
        myMutator (selectFrom targetList relids quals) (emptied c) =
          some (selectFrom targetList relids quals', c') ∧
        Approximates I true [relids] quals quals') ∧
    ∀ (os : Scopes) (H : Node α) (c : ContextModifier α) (rte : Nat),
      Cond (Comparison cat weakened) False os H → c.currentTrueVar.Resolves cat os →
      AtPart (· = []) (queryScopes cat H c.currentTrueVar rte) (boolCount H) c →
      c.listOfNotNullInCurrent = [] → Neutral c.ready c.constraintToAdd →
      ∃ H' c', myMutator H c = some (H', c') ∧ Neutral c'.ready c'.constraintToAdd ∧
        Approximates I c.positive os H H' := by
  constructor
  · intro targetList relids quals h
    obtain ⟨w, c, c', hwalk, hmake, hrun⟩ := Pass.run_translate (fun _ _ => mutates_comparison)
      (fun _ _ => Comparison.atom) targetList h
    exact ⟨w, c, _, c', hwalk, hmake, hrun, approximates_translate hI h true⟩
  · intro os H c rte h hs hat hknown hflags
    obtain ⟨out, r, ks, hrun, hflags', rfl⟩ :=
      Pass.mutates_translate (fun _ _ => mutates_comparison) h c rte hs hat hflags hknown
    exact ⟨_, _, hrun, hflags', approximates_translate hI h c.positive⟩

/-- `s.a = r.a` inside a sub-select over `s` of a query over `r`. -/
def joined (opno : Oid) : Node Int := .opExpr opno [.var ⟨1, 1, 0⟩, .var ⟨1, 1, 1⟩]

theorem joined_comparison {n : Nat} (hn : 1 ≤ n) (s r : Oid) {os : Scopes} {opno : Oid}
    (hop : opno ∈ weakened) :
    Comparison (Catalog.nullable n) weakened ([s] :: [r] :: os) (joined opno) := by
  refine .mk hop ?_ ⟨_, List.mem_cons_self⟩
  simp only [List.forall_mem_cons, List.not_mem_nil, false_imp_iff, implies_true, and_true]
  exact ⟨.column ⟨s, rfl, by decide, hn⟩, .column ⟨r, rfl, by decide, hn⟩⟩

/-- For `SELECT FROM r WHERE NOT EXISTS (SELECT FROM s WHERE s.a = r.a)`, and for its comparison
alone. -/
theorem myMutator_approximates_antijoin :
    (∃ w c quals' c',
      myWalker (Catalog.nullable 1)
        (selectFrom [] [1] (.boolExpr .notExpr [existsFrom [] [2] (joined 98)]))
        makeContextWalkerSetConstraint = some w ∧
      makeContextModifier true w = some c ∧
      myMutator (selectFrom [] [1] (.boolExpr .notExpr [existsFrom [] [2] (joined 98)]))
        (emptied c) = some (selectFrom [] [1] quals', c') ∧
      Approximates intInterp true [[1]] (.boolExpr .notExpr [existsFrom [] [2] (joined 98)])
        quals') ∧
    ∃ H' c', myMutator (joined 98) ⟨false, false, [], [],
      (Scope.root.enter (Catalog.nullable 1) 0 [1]
        ).enter (Catalog.nullable 1) 1 [2], [], [], [], 0, 0⟩ = some (H', c') ∧
      Neutral c'.ready c'.constraintToAdd ∧
      Approximates intInterp false [[2], [1]] (joined 98) H' := by
  have hthm := myMutator_approximates (Catalog.nullable 1) intInterp fun _ _ => intInterp_strict _
  have hjoined : Comparison (Catalog.nullable 1) weakened [[2], [1]] (joined 98) :=
    joined_comparison (by decide) 2 1 (by decide)
  refine ⟨hthm.1 [] [1] _ (.not (.inr rfl) (.exist (.leaf hjoined))),
    hthm.2 [[2], [1]] (joined 98) _ 2 (.leaf hjoined)
      (((Scope.resolves_root _).enter 0 [1]).enter 1 [2])
      ⟨⟨[], rfl⟩, by decide, rfl, by simp, by simp⟩ rfl ⟨rfl, rfl⟩⟩

end Infed.Codd
