import Infed.Marked.Pass
import Infed.Run

/-! The marked-null translation returns certain answers only, for `=` and `<>`.  Nulls are ordinary
values here and the same null can occur many times, so the four cases differ: two equal values stay
equal under every valuation and two different ones were different before it, while `<>` is only
certain between constants and `=` is possible as soon as a null takes part. -/

namespace Infed.Marked

variable {cat : Catalog}

/-- What the marked nulls stand for: constants stay, and each null becomes one constant. -/
structure Valuation where
  toFun : Int → Int
  fixes : ∀ n, 0 ≤ n → toFun n = n
  constant : ∀ n, n < 0 → 0 ≤ toFun n

/-- The database with every null replaced. -/
def Valuation.apply (v : Valuation) (D : Database Int) : Database Int := fun relid =>
  (D relid).map fun row => row.map fun x => x.map v.toFun

/-- A row and the same row under the valuation. -/
def Valuation.Replaces (v : Valuation) : Row Int → Row Int → Prop :=
  List.Forall₂ fun x y => y = x.map v.toFun

theorem Valuation.replaces (v : Valuation) (D : Database Int) (relid : Oid) :
    List.Forall₂ v.Replaces (D relid) (v.apply D relid) := by
  rw [Valuation.apply, List.forall₂_map_right_iff]
  refine List.forall₂_same.mpr fun row _ => ?_
  rw [Valuation.Replaces, List.forall₂_map_right_iff]
  exact List.forall₂_same.mpr fun _ _ => rfl

theorem Valuation.column (v : Valuation) {ρ ρ' : Env Int} (hρ : ρ.Rel v.Replaces ρ') (x : Var) :
    ρ'.column x = (ρ.column x).map v.toFun := by
  have hrow := hρ.row .nil x.varlevelsup x.varno
  have hdefault : (none : Option Int) = (none : Option Int).map v.toFun := rfl
  exact forall₂_getD hrow hdefault (x.varattno - 1)

/-! ### Comparisons -/

/-- A comparison with `=` or `<>` of columns and constants that are no nulls, at least one of them a
column. -/
inductive Comparison (cat : Catalog) (os : Scopes) : Node Int → Prop where
  | mk {opno args} : opno = 96 ∨ opno = 518 → (∀ a ∈ args, Operand cat os a) →
    (∀ n, .const (some n) ∈ args → 0 ≤ n) → (∃ v, .var v ∈ args) →
    Comparison cat os (.opExpr opno args)

theorem Comparison.atom {os : Scopes} {a : Node Int} (h : Comparison cat os a) : Atom cat os a := by
  obtain ⟨_, hargs, _, _⟩ := h
  exact .comparison hargs

/-- The check of an argument of a comparison. -/
def signCheck (p : Bool) : Node Int → List (Node Int)
  | .var v => if p then [greaterZero v] else [lessZero v]
  | _ => []

/-- The comparison at a polarity: `<>` only between constants where it counts positively, and `=`
also when a null takes part where it counts negatively. -/
def leaf (p : Bool) : Node Int → Node Int
  | .opExpr opno args =>
    if p && opno == 518 then .boolExpr .andExpr
      (args.flatMap (signCheck true) ++ [.opExpr opno args])
    else if !p && opno == 96 then
      .boolExpr .orExpr (args.flatMap (signCheck false) ++ [.opExpr opno args])
    else .opExpr opno args
  | a => a

section

variable {v : Valuation} {D D' : Database Int} {os : Scopes} {ρ ρ' : Env Int}
  {args : List (Node Int)}

theorem evalScalars_replaces (hargs : ∀ a ∈ args, Operand cat os a)
    (hconst : ∀ n, .const (some n) ∈ args → 0 ≤ n) (hρ : ρ.Rel v.Replaces ρ') :
    evalScalars intInterp D' args ρ' = (evalScalars intInterp D args ρ).map
      (Option.map v.toFun) := by
  rw [evalScalars_eq_map, evalScalars_eq_map, List.map_map]
  refine List.map_congr_left fun a ha => ?_
  cases hargs a ha with
  | column _ => exact v.column hρ _
  | @constant c =>
    cases c with
    | none => rfl
    | some n => simp [evalScalar, v.fixes n (hconst n ha)]

/-- Where no column is a null, the valuation changes no argument. -/
theorem evalScalars_fixed (hargs : ∀ a ∈ args, Operand cat os a) (hρ : ρ.Rel v.Replaces ρ')
    (hnn : ∀ x, .var x ∈ args → ∀ n, ρ.column x = some n → 0 ≤ n) :
    evalScalars intInterp D' args ρ' = evalScalars intInterp D args ρ := by
  rw [evalScalars_eq_map, evalScalars_eq_map]
  refine List.map_congr_left fun a ha => ?_
  cases hargs a ha with
  | constant => rfl
  | @column x _ =>
    refine (v.column hρ x).trans ?_
    simp only [evalScalar]
    cases hx : ρ.column x with
    | none => rfl
    | some n => simp [v.fixes n (hnn x ha n hx)]

theorem test_eq_map {f : Int → Int} {xs : List (Option Int)} (h : intInterp.test 96 xs = .true) :
    intInterp.test 96 (xs.map (Option.map f)) = .true := by
  simp only [intInterp] at h ⊢
  split at h
  · simp_all [intCompare]
  · cases h

theorem test_ne_of_map {f : Int → Int} {xs : List (Option Int)}
    (h : intInterp.test 518 (xs.map (Option.map f)) = .true) : intInterp.test 518 xs = .true := by
  match xs with
  | [some a, some b] =>
    simp only [intInterp, List.map_cons, List.map_nil, Option.map_some, intCompare,
      Kleene.ofBool_eq_true, decide_eq_true_eq] at h ⊢
    exact fun e => h (congrArg f e)
  | [] | [_] | [none, _] | [some _, none] | _ :: _ :: _ :: _ => simp [intInterp] at h

theorem leaf_true_sound {opno : Oid} (hop : opno = 96 ∨ opno = 518)
    (hargs : ∀ a ∈ args, Operand cat os a) (hconst : ∀ n, .const (some n) ∈ args → 0 ≤ n)
    (hρ : ρ.Rel v.Replaces ρ') (h : evalCond intInterp D (leaf true (.opExpr opno args)) ρ =
      .true) :
    evalCond intInterp D' (.opExpr opno args) ρ' = .true := by
  rcases hop with rfl | rfl
  · simp only [leaf, evalCond] at h ⊢
    rw [evalScalars_replaces (D := D) hargs hconst hρ]
    exact test_eq_map h
  · simp only [leaf, Bool.true_and, beq_self_eq_true, if_true] at h
    rw [evalCond_and_eq_true] at h
    have hcmp := h (.opExpr 518 args) (by simp)
    simp only [evalCond] at hcmp ⊢
    rw [evalScalars_fixed hargs hρ]
    · exact hcmp
    · intro x hx n hn
      have hcheck := h (greaterZero x)
        (List.mem_append_left _ (List.mem_flatMap.mpr ⟨.var x, hx, by simp [signCheck]⟩))
      simp [greaterZero, evalCond, evalScalars, evalScalar, hn, intInterp, intCompare] at hcheck
      omega

theorem leaf_false_complete {opno : Oid} (hop : opno = 96 ∨ opno = 518)
    (hargs : ∀ a ∈ args, Operand cat os a) (hconst : ∀ n, .const (some n) ∈ args → 0 ≤ n)
    (hρ : ρ.Rel v.Replaces ρ') (h : evalCond intInterp D' (.opExpr opno args) ρ' = .true) :
    evalCond intInterp D (leaf false (.opExpr opno args)) ρ = .true := by
  rcases hop with rfl | rfl
  · simp only [leaf, Bool.false_and, Bool.false_eq_true, if_false, Bool.not_false, Bool.true_and,
      beq_self_eq_true, if_true]
    rw [evalCond_or_eq_true]
    by_cases hnn : ∀ x, .var x ∈ args → ∀ n, ρ.column x = some n → 0 ≤ n
    · refine ⟨.opExpr 96 args, by simp, ?_⟩
      simp only [evalCond] at h ⊢
      rwa [← evalScalars_fixed hargs hρ hnn]
    · push Not at hnn
      obtain ⟨x, hx, n, hn, hneg⟩ := hnn
      refine ⟨lessZero x, ?_, ?_⟩
      · exact List.mem_append_left _ (List.mem_flatMap.mpr ⟨.var x, hx, by simp [signCheck]⟩)
      · simp [lessZero, evalCond, evalScalars, evalScalar, hn, intInterp, intCompare, hneg]
  · simp only [leaf, evalCond] at h ⊢
    rw [evalScalars_replaces (D := D) hargs hconst hρ] at h
    exact test_ne_of_map h

end

/-! ### The mutator with nothing known -/

/-- With nothing known, the mutator leaves its flags as they were after each comparison and
computes the translation. -/
theorem mutates_comparison {os : Scopes} {a : Node Int} (ha : Comparison cat os a) :
    pass.Mutates Neutral (· = []) (· = []) (fun p _ a out => out = translate leaf p a)
      cat os a := by
  cases ha with
  | @mk opno args hop hargs hconst hcolumn =>
  intro c rte hs _ hJ hK
  obtain ⟨hready, hchecks⟩ := hJ
  simp only [queryScopes, boolCount, List.length_nil]
  have hstrict : pass.strictPart opno = none := by rcases hop with rfl | rfl <;> rfl
  have hown : args.flatMap (pass.operandChecks c) = args.flatMap (signCheck c.positive) := by
    refine List.flatMap_congr fun a ha => ?_
    cases hargs a ha with
    | constant => rfl
    | column hv =>
      obtain ⟨t, ht, _⟩ := getTrueVar_of_inScope hs hv
      cases hp : c.positive <;>
        simp [Pass.operandChecks, signCheck, ht, hK, isInListTrueVar, pass, hp]
  have hne : (args.flatMap (signCheck c.positive)).isEmpty = false := by
    obtain ⟨x, hx⟩ := hcolumn
    have hin : (if c.positive then greaterZero x else lessZero x) ∈
        args.flatMap (signCheck c.positive) :=
      List.mem_flatMap.mpr ⟨.var x, hx, by cases c.positive <;> simp [signCheck]⟩
    exact List.isEmpty_eq_false_iff.mpr (List.ne_nil_of_mem hin)
  rw [pass.myMutator_opExpr hstrict hargs hs, Pass.ownChecks, hchecks, hready, hown]
  refine ⟨leaf c.positive (.opExpr opno args), false, [], ?_, ⟨rfl, rfl⟩, rfl⟩
  rcases hop with rfl | rfl <;> cases hp : c.positive <;> rw [hp] at hne <;>
    simp [pass, leaf, hne]

/-! ### Soundness -/

/-- `H'` is true only where `H` is true under every valuation, or, at negative polarity, wherever
`H` is true under some valuation. -/
def Approximates (positive : Bool) (os : Scopes) (H H' : Node Int) : Prop :=
  ∀ (D : Database Int) (v : Valuation) (kss : List (List Nat)),
    if positive then
      evalCond intInterp D H' (envAt D os kss) = .true →
        evalCond intInterp (v.apply D) H (envAt (v.apply D) os kss) = .true
    else
      evalCond intInterp (v.apply D) H (envAt (v.apply D) os kss) = .true →
        evalCond intInterp D H' (envAt D os kss) = .true

theorem approximates_translate {os : Scopes} {a : Node Int} (h : Cond (Comparison cat) False os a)
    (p : Bool) : Approximates p os a (translate leaf p a) := by
  intro D v kss
  have hsound := translate_sound (v.replaces D) (fun _ _ ha => by cases ha; exact ⟨_, _, rfl⟩)
    (fun _ _ ha _ _ hρ => by
      cases ha with | mk hop hargs hconst _ => exact leaf_true_sound hop hargs hconst hρ)
    (fun _ _ ha _ _ hρ => by
      cases ha with | mk hop hargs hconst _ => exact leaf_false_complete hop hargs hconst hρ) h
    (envAt_rel (v.replaces D) .nil os kss)
  cases p
  · exact hsound.2
  · exact hsound.1

/-- The rewriting approximates, at both polarities and in every context with nothing known; and so
does the WHERE of a query after a run of the walker and the mutator. -/
theorem marked_approximates (cat : Catalog) :
    (∀ (targetList : List (Node Int)) (relids : List Oid) (quals : Node Int),
      Cond (Comparison cat) False [relids] quals →
      ∃ w c quals' c',
        myWalker cat (selectFrom targetList relids quals) makeContextWalkerSetConstraint = some w ∧
        makeContextModifier true w = some c ∧
        myMutator (selectFrom targetList relids quals) (emptied c) =
          some (selectFrom targetList relids quals', c') ∧
        Approximates true [relids] quals quals') ∧
    ∀ (os : Scopes) (H : Node Int) (c : ContextModifier Int) (rte : Nat),
      Cond (Comparison cat) False os H → c.currentTrueVar.Resolves cat os →
      AtPart (· = []) (queryScopes cat H c.currentTrueVar rte) (boolCount H) c →
      c.listOfNotNullInCurrent = [] → Neutral c.ready c.constraintToAdd →
      ∃ H' c', myMutator H c = some (H', c') ∧ Neutral c'.ready c'.constraintToAdd ∧
        Approximates c.positive os H H' := by
  constructor
  · intro targetList relids quals h
    obtain ⟨w, c, c', hwalk, hmake, hrun⟩ := Pass.run_translate (fun _ _ => mutates_comparison)
      (fun _ _ => Comparison.atom) targetList h
    exact ⟨w, c, _, c', hwalk, hmake, hrun, approximates_translate h true⟩
  · intro os H c rte h hs hat hknown hflags
    obtain ⟨out, r, ks, hrun, hflags', rfl⟩ :=
      Pass.mutates_translate (fun _ _ => mutates_comparison) h c rte hs hat hflags hknown
    exact ⟨_, _, hrun, hflags', approximates_translate h c.positive⟩

/-- `r.a <> 3 AND NOT EXISTS (SELECT FROM s WHERE s.a = r.a)`. -/
def unmatched : Node Int :=
  .boolExpr .andExpr [.opExpr 518 [.var ⟨1, 1, 0⟩, .const (some 3)],
    .boolExpr .notExpr [existsFrom [] [2] (.opExpr 96 [.var ⟨1, 1, 0⟩, .var ⟨1, 1, 1⟩])]]

theorem unmatched_equality :
    Comparison (Catalog.nullable 1) [[2], [1]] (.opExpr 96 [.var ⟨1, 1, 0⟩, .var ⟨1, 1, 1⟩]) := by
  refine .mk (.inl rfl) ?_ (by simp) ⟨_, List.mem_cons_self⟩
  simp only [List.forall_mem_cons, List.not_mem_nil, false_imp_iff, implies_true, and_true]
  exact ⟨.column ⟨2, rfl, by decide, by decide⟩, .column ⟨1, rfl, by decide, by decide⟩⟩

theorem unmatched_cond : Cond (Comparison (Catalog.nullable 1)) False [[1]] unmatched := by
  refine .and (by simp) ?_
  simp only [List.forall_mem_cons, List.not_mem_nil, false_imp_iff, implies_true, and_true]
  refine ⟨.leaf (.mk (.inr rfl) ?_ (by simp) ⟨_, List.mem_cons_self⟩),
    .not (.inr rfl) (.exist (.leaf unmatched_equality))⟩
  simp only [List.forall_mem_cons, List.not_mem_nil, false_imp_iff, implies_true, and_true]
  exact ⟨.column ⟨1, rfl, by decide, by decide⟩, .constant⟩

/-- For a query with both operators, and for the equality alone at negative polarity. -/
theorem marked_approximates_unmatched :
    (∃ w c quals' c',
      myWalker (Catalog.nullable 1) (selectFrom [] [1] unmatched) makeContextWalkerSetConstraint =
        some w ∧
      makeContextModifier true w = some c ∧
      myMutator (selectFrom [] [1] unmatched) (emptied c) = some (selectFrom [] [1] quals', c') ∧
      Approximates true [[1]] unmatched quals') ∧
    ∃ H' c', myMutator (.opExpr 96 [.var ⟨1, 1, 0⟩, .var ⟨1, 1, 1⟩])
        ⟨false, false, [], [], (Scope.root.enter (Catalog.nullable 1) 0 [1]).enter
          (Catalog.nullable 1) 1 [2], [], [], [], 0, 0⟩ = some (H', c') ∧
      Neutral c'.ready c'.constraintToAdd ∧
      Approximates false [[2], [1]] (.opExpr 96 [.var ⟨1, 1, 0⟩, .var ⟨1, 1, 1⟩]) H' :=
  ⟨(marked_approximates (Catalog.nullable 1)).1 [] [1] unmatched unmatched_cond,
    (marked_approximates (Catalog.nullable 1)).2 [[2], [1]] _ _ 2 (.leaf unmatched_equality)
      (((Scope.resolves_root _).enter 0 [1]).enter 1 [2])
      ⟨⟨[], rfl⟩, by decide, rfl, by simp, by simp⟩ rfl ⟨rfl, rfl⟩⟩

end Infed.Marked
