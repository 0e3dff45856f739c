import Infed.Answers
import Infed.Marked.Hook
import Infed.TargetList

/-! The answers of the marked-null hook on the queries on which it returns, those without AND and
OR.  Only the columns declared NOT NULL are then known, and the rewritten query returns certain
answers only, for `=` and `<>` and on every database without a null in these columns: whatever the
nulls stand for, each row that it returns stands for a row of the original query. -/

namespace Infed.Marked

variable {cat : Catalog} {os : Scopes} {D D' : Database Int} {ρ ρ' : Env Int} {v : Valuation}

/-! ### What is known at a place -/

/-- The column is declared NOT NULL. -/
def DeclaredNotNull (cat : Catalog) (t : TrueVar) : Prop :=
  cat.attnotnull t.vartype t.varattno = true

/-- Without AND and OR, the schema is all that is known. -/
theorem knows_prepared {q : Node Int} {c : ContextModifier Int} (h : Prepared cat q true c)
    (hcount : boolCount q = 0) :
    Knows (DeclaredNotNull cat) c := by
  have htrue := h.fresh.lengthTrue
  have hfalse := h.fresh.lengthFalse
  rw [hcount, List.length_eq_zero_iff] at htrue hfalse
  exact ⟨h.schema, by simp [htrue], by simp [hfalse]⟩

/-! ### One comparison -/

/-- A comparison of two columns or constants that are no nulls with `=` or `<>`. -/
inductive Equality (cat : Catalog) (os : Scopes) : Node Int → Prop where
  | mk {opno x y} : opno = 96 ∨ opno = 518 → Operand cat os x → Operand cat os y →
    (∀ n, .const (some n) ∈ [x, y] → 0 ≤ n) → Equality cat os (.opExpr opno [x, y])

theorem Equality.intComparison {a : Node Int} (h : Equality cat os a) : IntComparison cat os a := by
  obtain ⟨hop, hx, hy, _⟩ := h
  refine .mk ?_ hx hy
  rcases hop with rfl | rfl <;> decide

/-- No column declared NOT NULL holds a null. -/
def Respects (cat : Catalog) (D : Database Int) : Prop :=
  ∀ relid attno, cat.attnotnull relid attno = true →
    ∀ row ∈ D relid, ∀ n, row.getD (attno - 1) none = some n → 0 ≤ n

section

variable {m : ContextModifier Int} {opno : Oid} {args : List (Node Int)}

/-- A column that is a null is not among the known ones, and so it is checked. -/
theorem lessZero_mem_ownChecks_of_neg (hD : Respects cat D)
    (hknows : Knows (DeclaredNotNull cat) m) (hargs : ∀ a ∈ args, Operand cat os a)
    (hs : m.currentTrueVar.Resolves cat os) (hover : ρ.Over D os) (hp : m.positive = false)
    {x : Var} (hx : .var x ∈ args) {n : Int} (hn : ρ.column x = some n) (hneg : n < 0) :
    lessZero x ∈ pass.ownChecks 96 args m := by
  have hasked : (m.ready || pass.checks m.positive 96) = true := by simp [pass, hp]
  rw [Pass.ownChecks, if_pos hasked]
  refine List.mem_flatMap.mpr ⟨.var x, hx, ?_⟩
  cases hargs _ hx with
  | column hscope =>
    obtain ⟨t, ht, hcol⟩ := getTrueVar_of_inScope hs hscope
    have hunknown : isInListTrueVar m.listOfNotNullInCurrent t = false := by
      rw [Bool.eq_false_iff, Ne, isInListTrueVar_iff, List.mem_map]
      rintro ⟨k, hk, hkt⟩
      have hdeclared : cat.attnotnull t.column.1 t.column.2 = true := by
        rw [← hkt]
        exact hknows.known k hk
      simp only [columnOf, Option.bind_eq_bind, Option.bind_eq_some_iff, Option.some.injEq] at hcol
      obtain ⟨relids, hrelids, relid, hrelid, hcol⟩ := hcol
      rw [← hcol] at hdeclared
      have hnonneg := hD relid _ hdeclared _ (hover _ _ _ _ hrelids hrelid) n hn
      omega
    rw [Pass.operandChecks, ht]
    simp [pass, hp, hunknown]

theorem rewriting_of_plain (hop : opno = 96 ∨ opno = 518) :
    rewriting m opno args =
      withChecks m.positive (pass.ownChecks opno args m) (.opExpr opno args) := by
  rcases hop with rfl | rfl <;> rfl

theorem rewriting_certain (hop : opno = 96 ∨ opno = 518) (hargs : ∀ a ∈ args, Operand cat os a)
    (hconst : ∀ n, .const (some n) ∈ args → 0 ≤ n) (hs : m.currentTrueVar.Resolves cat os)
    (hp : m.positive = true) (hρ : ρ.Rel v.Replaces ρ')
    (h : evalCond intInterp D (rewriting m opno args) ρ = .true) :
    evalCond intInterp D' (.opExpr opno args) ρ' = .true := by
  rw [rewriting_of_plain hop, withChecks_positive hargs hs hp] at h
  obtain ⟨hcolumns, h⟩ := h
  simp only [evalCond] at h ⊢
  rcases hop with rfl | rfl
  · rw [evalScalars_replaces (D := D) hargs hconst hρ]
    exact test_eq_map h
  · rw [evalScalars_fixed hargs hρ]
    · exact h
    · intro x hx n hn
      obtain ⟨n', hn', hpos⟩ := hcolumns (by simp) x hx
      rw [hn] at hn'
      cases hn'
      exact hpos.le

theorem rewriting_possible (hop : opno = 96 ∨ opno = 518) (hargs : ∀ a ∈ args, Operand cat os a)
    (hconst : ∀ n, .const (some n) ∈ args → 0 ≤ n) (hs : m.currentTrueVar.Resolves cat os)
    (hp : m.positive = false) (hD : Respects cat D) (hknows : Knows (DeclaredNotNull cat) m)
    (hover : ρ.Over D os) (hρ : ρ.Rel v.Replaces ρ')
    (h : evalCond intInterp D' (.opExpr opno args) ρ' = .true) :
    evalCond intInterp D (rewriting m opno args) ρ = .true := by
  rw [rewriting_of_plain hop, hp, evalCond_withChecks_false]
  rcases hop with rfl | rfl
  · by_cases hnn : ∀ x, .var x ∈ args → ∀ n, ρ.column x = some n → 0 ≤ n
    · right
      simp only [evalCond] at h ⊢
      rwa [← evalScalars_fixed hargs hρ hnn]
    · push Not at hnn
      obtain ⟨x, hx, n, hn, hneg⟩ := hnn
      left
      exact ⟨lessZero x, lessZero_mem_ownChecks_of_neg hD hknows hargs hs hover hp hx hn hneg,
        evalCond_lessZero.mpr ⟨n, hn, hneg⟩⟩
  · right
    simp only [evalCond] at h ⊢
    rw [evalScalars_replaces (D := D) hargs hconst hρ] at h
    exact test_ne_of_map h

end

/-! ### The answers -/

/-- A row under the valuation. -/
def Valuation.row (v : Valuation) (row : Row Int) : Row Int := row.map (Option.map v.toFun)

/-- An entry for a column, or for a constant that is no null. -/
def PlainEntry (t : Node Int) : Prop :=
  SimpleEntry t ∧ ∀ n resno, t = .targetEntry (.const (some n)) resno → 0 ≤ n

theorem replaces_target {targetList : List (Node Int)} (htarget : ∀ t ∈ targetList, PlainEntry t)
    (hρ : ρ.Rel v.Replaces ρ') :
    v.Replaces (evalScalars intInterp D targetList ρ) (evalScalars intInterp D' targetList ρ') := by
  rw [evalScalars_eq_map, evalScalars_eq_map, Valuation.Replaces, List.forall₂_map_left_iff,
    List.forall₂_map_right_iff]
  refine List.forall₂_same.mpr fun t ht => ?_
  obtain ⟨hsimple, hconst⟩ := htarget t ht
  cases hsimple with
  | @column x resno => exact v.column hρ x
  | @constant c resno =>
    cases c with
    | none => rfl
    | some n =>
      simp [evalScalar, v.fixes n (hconst n resno rfl)]

theorem evalQuery_certain {targetList : List (Node Int)} {relids : List Oid}
    {quals quals' : Node Int} (htarget : ∀ t ∈ targetList, PlainEntry t)
    (hquals : ∀ ρ ρ' : Env Int, ρ.Over D [relids] → ρ.Rel v.Replaces ρ' →
      evalCond intInterp D quals' ρ = .true → evalCond intInterp (v.apply D) quals ρ' = .true) :
    ((evalQuery intInterp D (selectFrom targetList relids quals') Env.empty).map v.row).Sublist
      (evalQuery intInterp (v.apply D) (selectFrom targetList relids quals) Env.empty) := by
  obtain ⟨chosen, hsub, hrows⟩ := evalQuery_forall₂ (v.replaces D) hquals
    fun ρ ρ' hρ => replaces_target htarget hρ
  have hchosen : chosen = _ := forall₂_iff_eq_map.mp (hrows.imp fun _ _ => forall₂_iff_eq_map.mp)
  rw [hchosen] at hsub
  exact hsub

/-- On every query without AND and OR the hook returns, and the query that it returns has certain
answers only: whatever the nulls stand for, its rows stand for rows of the original query, each for
one of its own. -/
theorem hook_answers_certain (cat : Catalog) (targetList : List (Node Int)) (relids : List Oid)
    (quals : Node Int) (htarget : ∀ t ∈ targetList, PlainEntry t)
    (h : Cond (Equality cat) False [relids] quals) (hcount : boolCount quals = 0) :
    ∃ q', myPostParseAnalyseHook cat (selectFrom targetList relids quals) = some q' ∧
      ∀ (D : Database Int) (v : Valuation), Respects cat D →
        ((evalQuery intInterp D q' Env.empty).map v.row).Sublist
          (evalQuery intInterp (v.apply D) (selectFrom targetList relids quals) Env.empty) := by
  obtain ⟨w, hw, hmake⟩ := pass.prepares targetList
    (h.mono (fun _ _ ha => ha.intComparison.atom) id)
  obtain ⟨c, hc, hprepared⟩ := hmake true
  obtain ⟨⟨q', c', hrun⟩, hreaches⟩ :=
    fresh_returns (fun _ _ ha => ha.intComparison) h hprepared.fresh
  refine ⟨q', hook_of_boolCount hw hc hrun hprepared hcount, fun D v hD => ?_⟩
  have hknows : Knows (DeclaredNotNull cat) c :=
    knows_prepared hprepared ((boolCount_selectFrom ..).trans hcount)
  obtain ⟨_, quals', _, _, _, rfl⟩ := Pass.myMutator_selectFrom_inv hrun
  refine evalQuery_certain htarget fun ρ ρ' hover hρ => ?_
  refine Pass.carries_query (p := true) (v.replaces D)
    (fun _ _ ha => ha.intComparison.isAtom) h hrun ?_ hover hρ
  intro path target m out m' hthrough hatom hm hrun' σ σ' hover' hσ
  have hcomes := hreaches path target m hthrough hatom hm
  have hp := hcomes.positive
  rw [hprepared.positive] at hp
  obtain ⟨hop, hx, hy, hconst⟩ := hcomes.atom
  have hargs := List.forall_mem_cons.mpr ⟨hx, List.forall_mem_singleton.mpr hy⟩
  obtain ⟨ready, hrun''⟩ := myMutator_comparison hargs hcomes.resolves hcomes.flags
  cases hrun''.symm.trans hrun'
  rw [← hp]
  unfold Kleene.Carries
  split
  · next hpos => exact rewriting_certain hop hargs hconst hcomes.resolves (by simpa using hpos) hσ
  · next hneg =>
    exact rewriting_possible hop hargs hconst hcomes.resolves (by simpa using hneg) hD
      (hknows.mutatorAt hm) hover' hσ

/-- `NOT EXISTS (SELECT FROM s WHERE s.a = r.a)`. -/
def noEqual : Node Int :=
  .boolExpr .notExpr [existsFrom [] [2] (.opExpr 96 [.var ⟨1, 1, 0⟩, .var ⟨1, 1, 1⟩])]

/-- `SELECT r.a FROM r WHERE NOT EXISTS (SELECT FROM s WHERE s.a = r.a)`, with `s.a` declared NOT
NULL and a null in `r`. -/
theorem hook_answers_certain_noEqual :
    ∃ q', myPostParseAnalyseHook ⟨fun _ => 1, fun relid _ => relid == 2⟩
        (selectFrom [.targetEntry (.var ⟨1, 1, 0⟩) 1] [1] noEqual) = some q' ∧
      ∀ v : Valuation, ((evalQuery intInterp
          (fun relid => if relid = 1 then [[some 1], [some (-1)]] else [[some 2]]) q'
          Env.empty).map v.row).Sublist
        (evalQuery intInterp
          (v.apply fun relid => if relid = 1 then [[some 1], [some (-1)]] else [[some 2]])
          (selectFrom [.targetEntry (.var ⟨1, 1, 0⟩) 1] [1] noEqual) Env.empty) := by
  have hcond : Cond (Equality ⟨fun _ => 1, fun relid _ => relid == 2⟩) False [[1]] noEqual :=
    .not (.inr rfl) (.exist (.leaf (.mk (.inl rfl) (.column ⟨2, rfl, by decide, by decide⟩)
      (.column ⟨1, rfl, by decide, by decide⟩) (by simp))))
  have htarget : PlainEntry (.targetEntry (.var ⟨1, 1, 0⟩) 1) := ⟨.column, by simp⟩
  obtain ⟨q', hq', hcertain⟩ := hook_answers_certain _ [.targetEntry (.var ⟨1, 1, 0⟩) 1] [1] noEqual
    (List.forall_mem_singleton.mpr htarget) hcond rfl
  refine ⟨q', hq', fun v => hcertain _ v fun relid attno hdeclared row hrow n hn => ?_⟩
  obtain rfl : relid = 2 := by simpa using hdeclared
  obtain rfl : row = [some 2] := by simpa using hrow
  cases hattno : attno - 1 with
  | zero =>
    rw [hattno] at hn
    cases hn
    decide
  | succ i =>
    rw [hattno] at hn
    cases hn

end Infed.Marked
