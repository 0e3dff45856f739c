import Infed.Marked.Compare

/-! The marked-null rewriting on data without nulls.  The checks at negative polarity are then false
and change nothing.  Those at positive polarity ask for `> 0`, which is not the same as being no
null: a comparison that gets them is lost on the value 0. -/

namespace Infed.Marked

variable {cat : Catalog} {os : Scopes} {m : ContextModifier Int} {D : Database Int} {ρ : Env Int}
  {opno : Oid} {x y : Node Int}

/-- No value of the database is a marked null. -/
def Complete (D : Database Int) : Prop :=
  ∀ relid, ∀ row ∈ D relid, ∀ n, some n ∈ row → 0 ≤ n

theorem mem_of_column (hρ : ρ.Over D os) {v : Var} (hv : v.InScope cat os) {n : Int}
    (hn : ρ.column v = some n) : ∃ relid, ∃ row ∈ D relid, some n ∈ row := by
  obtain ⟨relid, hcol, _⟩ := hv
  simp only [columnOf, Option.bind_eq_bind, Option.bind_eq_some_iff, Option.some.injEq,
    Prod.mk.injEq, and_true] at hcol
  obtain ⟨relids, hrelids, relid', hrelid, rfl⟩ := hcol
  refine ⟨relid', _, hρ _ _ _ _ hrelids hrelid, ?_⟩
  rw [Env.column, List.getD_eq_getElem?_getD] at hn
  cases hget : (ρ.row v.varlevelsup v.varno)[v.varattno - 1]? with
  | none =>
    rw [hget] at hn
    cases hn
  | some value =>
    rw [hget, Option.getD_some] at hn
    exact hn ▸ List.mem_of_getElem? hget

theorem Complete.column (hD : Complete D) (hρ : ρ.Over D os) {v : Var} (hv : v.InScope cat os)
    {n : Int} (hn : ρ.column v = some n) : 0 ≤ n := by
  obtain ⟨relid, row, hrow, hmem⟩ := mem_of_column hρ hv hn
  exact hD relid row hrow n hmem

/-- A comparison is lost: it counts positively, checks are asked for by `<>` or by a flag that a
comparison before it left set, it is true, and a column in it is 0. -/
def Lost (m : ContextModifier Int) (D : Database Int) (ρ : Env Int) : Node Int → Prop
  | .opExpr opno args => m.positive = true ∧ (m.ready || opno == 518) = true ∧
    evalCond intInterp D (.opExpr (checkedPart opno) args) ρ = .true ∧
    ∃ v, .var v ∈ args ∧ ρ.column v = some 0
  | _ => False

theorem column_ne_none {args : List (Node Int)}
    (h : evalCond intInterp D (.opExpr opno args) ρ = .true) {v : Var} (hv : .var v ∈ args) :
    ρ.column v ≠ none := by
  intro hnone
  have hmem : none ∈ evalScalars intInterp D args ρ := by
    rw [evalScalars_eq_map]
    exact List.mem_map.mpr ⟨.var v, hv, hnone⟩
  simp only [evalCond, intInterp_strict opno _ hmem] at h
  cases h

/-- The checks of a comparison that is true ask that none of its columns is 0. -/
theorem positive_iff {args : List (Node Int)} (hargs : ∀ a ∈ args, Operand cat os a)
    (hD : Complete D) (hρ : ρ.Over D os)
    (h : evalCond intInterp D (.opExpr opno args) ρ = .true) :
    (∀ v, .var v ∈ args → ∃ n, ρ.column v = some n ∧ 0 < n) ↔
      ¬∃ v, .var v ∈ args ∧ ρ.column v = some 0 := by
  constructor
  · rintro hpos ⟨v, hv, hzero⟩
    obtain ⟨n, hn, hlt⟩ := hpos v hv
    rw [hzero] at hn
    cases hn
    omega
  · intro hnot v hv
    obtain ⟨n, hn⟩ := Option.ne_none_iff_exists'.mp (column_ne_none h hv)
    have hscope : v.InScope cat os := by
      cases hargs _ hv with
      | column hscope => exact hscope
    have hle := hD.column hρ hscope hn
    have hne : n ≠ 0 := by
      rintro rfl
      exact hnot ⟨v, hv, hn⟩
    exact ⟨n, hn, by omega⟩

/-- On complete rows, the rewriting of a comparison is as true as the comparison exactly if the
comparison is not lost. -/
theorem rewriting_exact_iff {args : List (Node Int)} (hargs : ∀ a ∈ args, Operand cat os a)
    (hs : m.currentTrueVar.Resolves cat os) (hD : Complete D) (hρ : ρ.Over D os) :
    (evalCond intInterp D (rewriting m opno args) ρ = .true ↔
      evalCond intInterp D (.opExpr opno args) ρ = .true) ↔ ¬Lost m D ρ (.opExpr opno args) := by
  obtain ⟨hparts, hexcludes⟩ := comparison_parts opno args D ρ
  rw [rewriting_parts, hparts]
  cases hp : m.positive with
  | false =>
    refine iff_of_true (or_congr_left ?_) fun h => by simp [Lost, hp] at h
    rw [evalCond_withChecks_false]
    refine or_iff_right ?_
    rintro ⟨k, hk, hk'⟩
    obtain ⟨_, v, hv, rfl⟩ := mem_ownChecks_false hargs hs hp hk
    obtain ⟨n, hn, hlt⟩ := evalCond_lessZero.mp hk'
    cases hargs _ hv with
    | column hscope =>
      have := hD.column hρ hscope hn
      omega
  | true =>
    rw [← hp, withChecks_positive hargs hs hp, checkedPart_beq]
    constructor
    · rintro hiff ⟨_, hasked, htrue, hzero⟩
      rcases hiff.mpr (.inl htrue) with h | h
      · exact (positive_iff hargs hD hρ htrue).mp (h.1 hasked) hzero
      · exact hexcludes htrue h
    · intro hlost
      refine or_congr_left ⟨And.right, fun htrue => ⟨fun hasked => ?_, htrue⟩⟩
      refine (positive_iff hargs hD hρ htrue).mpr fun hzero => hlost ⟨hp, hasked, htrue, hzero⟩

/-! ### Whole queries -/

/-- No comparison of the query is lost on rows of the tables in scope, in the context in which the
mutator comes to it. -/
def NothingLost (D : Database Int) (q : Node Int) (c : ContextModifier Int) : Prop :=
  ∀ path target m, through path q = true → target.isAtom = true →
    pass.mutatorAt path q c = some (target, m) →
    ∀ ρ, ρ.Over D (scopesAt path q []) → ¬Lost m D ρ target

/-- Where 0 is no value of the database, no comparison is lost. -/
theorem nothingLost_of_nonzero {targetList : List (Node Int)} {relids : List Oid}
    {quals : Node Int} {c : ContextModifier Int}
    (h : Cond (IntComparison cat) False [relids] quals)
    (hc : Fresh cat (selectFrom targetList relids quals) c)
    (hD : ∀ relid, ∀ row ∈ D relid, some 0 ∉ row) :
    NothingLost D (selectFrom targetList relids quals) c := by
  intro path target m hthrough hatom hm ρ hover
  have hcomes := (fresh_returns (fun _ _ => id) h hc).2 path target m hthrough hatom hm
  obtain ⟨_, hx, hy⟩ := hcomes.atom
  rintro ⟨_, _, _, v, hv, hzero⟩
  have hscope : v.InScope cat (scopesAt path (selectFrom targetList relids quals) []) := by
    cases List.forall_mem_cons.mpr ⟨hx, List.forall_mem_singleton.mpr hy⟩ _ hv with
    | column hscope => exact hscope
  obtain ⟨relid, row, hrow, hmem⟩ := mem_of_column hover hscope hzero
  exact hD relid row hrow hmem

/-- The rewriting of each comparison is as true as the comparison exactly where the comparison is
not lost; and where none is lost, the query returns the same rows. -/
theorem marked_exact (cat : Catalog) (targetList : List (Node Int)) (relids : List Oid)
    (quals : Node Int) (h : Cond (IntComparison cat) False [relids] quals) :
    ∃ w c q' c',
      myWalker cat (selectFrom targetList relids quals) makeContextWalkerSetConstraint = some w ∧
      makeContextModifier true w = some c ∧
      myMutator (selectFrom targetList relids quals) c = some (q', c') ∧
      ∀ D, Complete D →
        (∀ path target, through path (selectFrom targetList relids quals) = true →
          nodeAt path (selectFrom targetList relids quals) = some target → target.isAtom = true →
          ∃ m out, pass.mutatorAt path (selectFrom targetList relids quals) c = some (target, m) ∧
            nodeAt path q' = some out ∧
            ∀ ρ, ρ.Over D (scopesAt path (selectFrom targetList relids quals) []) →
              ((evalCond intInterp D out ρ = .true ↔ evalCond intInterp D target ρ = .true) ↔
                ¬Lost m D ρ target)) ∧
        (NothingLost D (selectFrom targetList relids quals) c →
          evalQuery intInterp D q' Env.empty =
            evalQuery intInterp D (selectFrom targetList relids quals) Env.empty) := by
  obtain ⟨w, hwalk, hmake⟩ := pass.prepares targetList (h.mono (fun _ _ ha => ha.atom) id)
  obtain ⟨c, hc, prep⟩ := hmake true
  obtain ⟨⟨q', c', hrun⟩, hreaches⟩ := fresh_returns (fun _ _ => id) h prep.fresh
  refine ⟨w, c, q', c', hwalk, hc, hrun, fun D hD => ?_⟩
  have hplace : ∀ path target m out m',
      through path (selectFrom targetList relids quals) = true → target.isAtom = true →
      pass.mutatorAt path (selectFrom targetList relids quals) c = some (target, m) →
      pass.myMutator target m = some (out, m') →
      ∀ ρ, ρ.Over D (scopesAt path (selectFrom targetList relids quals) []) →
        ((evalCond intInterp D out ρ = .true ↔ evalCond intInterp D target ρ = .true) ↔
          ¬Lost m D ρ target) := by
    intro path target m out m' hthrough hatom hm hrun' ρ hover
    have hcomes := hreaches path target m hthrough hatom hm
    obtain ⟨_, hx, hy⟩ := hcomes.atom
    have hargs := List.forall_mem_cons.mpr ⟨hx, List.forall_mem_singleton.mpr hy⟩
    obtain ⟨ready, hrun''⟩ := myMutator_comparison hargs hcomes.resolves hcomes.flags
    cases hrun''.symm.trans hrun'
    exact rewriting_exact_iff hargs hcomes.resolves hD hover
  constructor
  · intro path target hthrough hpath hatom
    obtain ⟨m, out, m', hm, hrun', hnode⟩ := Pass.myMutator_at hrun hpath hthrough
    exact ⟨m, out, hm, hnode, hplace path target m out m' hthrough hatom hm hrun'⟩
  · intro hlost
    obtain ⟨_, quals', _, _, _, rfl⟩ := Pass.myMutator_selectFrom_inv hrun
    have hcarries : ∀ p, pass.CarriesAtoms intInterp D D Eq [] p
        (selectFrom targetList relids quals) c := by
      intro p path target m out m' hthrough hatom hm hrun' ρ ρ' hover hρ
      have hiff := (hplace path target m out m' hthrough hatom hm hrun' ρ hover).mpr
        (hlost path target m hthrough hatom hm ρ hover)
      obtain ⟨_, hx, hy⟩ := (hreaches path target m hthrough hatom hm).atom
      rw [evalCond_opExpr_rel (List.forall_mem_cons.mpr
        ⟨hx, List.forall_mem_singleton.mpr hy⟩) hρ]
      unfold Kleene.Carries
      split
      · exact hiff.mp
      · exact hiff.mpr
    refine evalQuery_congr (Env.over_empty D) fun ρ hover => ?_
    have hall := fun p => Pass.carries_query (fun relid => List.forall₂_same.mpr fun _ _ => rfl)
      (fun _ _ ha => IntComparison.isAtom ha) h hrun (hcarries p) hover ρ.rel_refl
    exact ⟨hall true, hall false⟩

theorem unmatched_intCond : Cond (IntComparison (Catalog.nullable 1)) False [[1]] unmatched := by
  refine .and (by simp) (List.forall_mem_cons.mpr ⟨.leaf (.mk (by decide) ?_ .constant),
    List.forall_mem_singleton.mpr (.not (.inr rfl) (.exist (.leaf (.mk (by decide) ?_ ?_))))⟩)
  · exact .column ⟨1, rfl, by decide, by decide⟩
  · exact .column ⟨2, rfl, by decide, by decide⟩
  · exact .column ⟨1, rfl, by decide, by decide⟩

/-- The table `r` has the rows `(5)` and `(7)`, and `s` the row `(7)`. -/
def fiveSeven : Database Int := fun relid =>
  if relid = 1 then [[some 5], [some 7]] else [[some 7]]

theorem mem_fiveSeven {relid : Oid} {row : Row Int} (h : row ∈ fiveSeven relid) :
    row = [some 5] ∨ row = [some 7] := by
  unfold fiveSeven at h
  split at h <;> simp at h <;> tauto

/-- The row `(5)` of `r` stays. -/
theorem marked_exact_unmatched :
    Complete fiveSeven ∧ ∃ w c q' c',
      myWalker (Catalog.nullable 1) (selectFrom [] [1] unmatched) makeContextWalkerSetConstraint =
        some w ∧
      makeContextModifier true w = some c ∧
      myMutator (selectFrom [] [1] unmatched) c = some (q', c') ∧
      NothingLost fiveSeven (selectFrom [] [1] unmatched) c ∧
      evalQuery intInterp fiveSeven q' Env.empty =
        evalQuery intInterp fiveSeven (selectFrom [] [1] unmatched) Env.empty ∧
      evalQuery intInterp fiveSeven (selectFrom [] [1] unmatched) Env.empty = [[]] := by
  have hD : Complete fiveSeven := by
    intro relid row hrow n hn
    rcases mem_fiveSeven hrow with rfl | rfl <;> simp at hn <;> omega
  obtain ⟨w, c, q', c', hwalk, hmake, hrun, h⟩ :=
    marked_exact (Catalog.nullable 1) [] [1] unmatched unmatched_intCond
  have hlost : NothingLost fiveSeven (selectFrom [] [1] unmatched) c := by
    obtain ⟨w', hwalk', hmake'⟩ := pass.prepares []
      (unmatched_intCond.mono (fun _ _ ha => ha.atom) id)
    cases hwalk'.symm.trans hwalk
    obtain ⟨c', hc', prep⟩ := hmake' true
    cases hc'.symm.trans hmake
    refine nothingLost_of_nonzero unmatched_intCond prep.fresh fun relid row hrow => ?_
    rcases mem_fiveSeven hrow with rfl | rfl <;> decide
  exact ⟨hD, w, c, q', c', hwalk, hmake, hrun, hlost, (h fiveSeven hD).2 hlost,
    by decide +kernel⟩

/-- The rows of a query after a run. -/
def rewrittenRows (cat : Catalog) (q : Node Int) (D : Database Int) : Option (List (Row Int)) := do
  let w ← myWalker cat q makeContextWalkerSetConstraint
  let c ← makeContextModifier true w
  let (q', _) ← myMutator q c
  some (evalQuery intInterp D q' Env.empty)

/-- `SELECT r.a FROM r WHERE r.a <> 3`. -/
def notThree : Node Int :=
  selectFrom [.targetEntry (.var ⟨1, 1, 0⟩) 1] [1]
    (.opExpr 518 [.var ⟨1, 1, 0⟩, .const (some 3)])

/-- The one row of the one table is `(0)`. -/
def justZero : Database Int := fun relid => if relid = 1 then [[some 0]] else []

/-- The row `(0)` is lost. -/
theorem marked_exact_fails :
    Cond (IntComparison (Catalog.nullable 1)) False [[1]] notThree.quals ∧ Complete justZero ∧
      rewrittenRows (Catalog.nullable 1) notThree justZero = some [] ∧
      evalQuery intInterp justZero notThree Env.empty = [[some 0]] := by
  refine ⟨.leaf (.mk (by decide) (.column ⟨1, rfl, by decide, by decide⟩) .constant), ?_,
    by decide +kernel, by decide +kernel⟩
  intro relid row hrow n hn
  unfold justZero at hrow
  split at hrow
  · obtain rfl := List.mem_singleton.mp hrow
    obtain rfl := Option.some.inj (List.mem_singleton.mp hn)
    decide
  · cases hrow

end Infed.Marked
