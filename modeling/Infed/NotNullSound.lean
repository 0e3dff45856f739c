import Infed.Combinations
import Infed.NotNull
import Infed.Translate
import Mathlib.Data.Finset.Filter

/-! The not-null sets are right: where a condition is true, and dually where it is not, none of the
columns of its set is NULL.  For the set of a sub-select without rows this can fail, because EXISTS
is then false whatever the columns of the enclosing queries hold. -/

namespace Infed

variable {α : Type} {cat : Catalog} {I : Interp α} {D : Database α} {os : Scopes} {ρ : Env α}

/-! ### Rows of the tables in scope -/

/-- The rows of the environment are rows of the tables in scope. -/
def Env.Over (D : Database α) (os : Scopes) (ρ : Env α) : Prop :=
  ∀ (l : Nat) relids n relid, os[l]? = some relids → entryAt relids n = some relid →
    ρ.row l n ∈ D relid

theorem Env.Over.push (h : ρ.Over D os) {relids : List Oid} {z : List (Nat × Row α)}
    (hz : z ∈ combinations (relids.map D) (List.range' 1 relids.length)) :
    (ρ.push z).Over D (relids :: os) := by
  intro l relids' n relid hl hn
  cases l with
  | succ l => exact h l relids' n relid hl hn
  | zero =>
    cases hl
    obtain ⟨h1, h2, hget⟩ := entryAt_eq_some hn
    have hmem := lookup_combination hz (n := n) (List.mem_range'_1.mpr ⟨h1, by omega⟩)
    rw [List.getD_eq_getElem?_getD, List.getElem?_map, hget] at hmem
    exact hmem

/-! ### Columns that are not NULL -/

/-- None of the columns of `K` that are in scope is NULL. -/
def NonNull (os : Scopes) (ρ : Env α) (K : Finset Column) : Prop :=
  ∀ v col, columnOf os v = some col → col ∈ K → ρ.column v ≠ none

theorem NonNull.union {K K' : Finset Column} (h : NonNull os ρ K) (h' : NonNull os ρ K') :
    NonNull os ρ (K ∪ K') := by
  intro v col hv hcol
  rcases Finset.mem_union.mp hcol with hcol | hcol
  · exact h v col hv hcol
  · exact h' v col hv hcol

theorem nonNull_empty : NonNull os ρ ∅ := fun _ _ _ hcol => absurd hcol (Finset.notMem_empty _)

/-- What holds inside a sub-select holds of the columns of the enclosing queries. -/
theorem NonNull.pop {relids : List Oid} {z : List (Nat × Row α)} {K : Finset Column}
    (h : NonNull (relids :: os) (ρ.push z) K) : NonNull os ρ K :=
  fun v col hv hcol => h ⟨v.varno, v.varattno, v.varlevelsup + 1⟩ col hv hcol

theorem mem_flatten_of_columnOf {v : Var} {col : Column} (h : columnOf os v = some col) :
    col.1 ∈ os.flatten := by
  simp only [columnOf, Option.bind_eq_bind, Option.bind_eq_some_iff, Option.some.injEq] at h
  obtain ⟨relids, hrelids, relid, hrelid, rfl⟩ := h
  obtain ⟨_, _, hget⟩ := entryAt_eq_some hrelid
  exact List.mem_flatten.mpr
    ⟨relids, List.mem_of_getElem? hrelids, List.mem_of_getElem? hget⟩

/-- Where each table is once in scope, a column has one reference. -/
theorem columnOf_inj (hnodup : os.flatten.Nodup) {v w : Var} {col : Column}
    (hv : columnOf os v = some col) (hw : columnOf os w = some col) : v = w := by
  simp only [columnOf, Option.bind_eq_bind, Option.bind_eq_some_iff, Option.some.injEq] at hv hw
  obtain ⟨relids, hrelids, relid, hrelid, rfl⟩ := hv
  obtain ⟨relids', hrelids', relid', hrelid', heq⟩ := hw
  obtain ⟨rfl, hattno⟩ := Prod.mk.inj heq
  obtain ⟨h1, _, hget⟩ := entryAt_eq_some hrelid
  obtain ⟨h1', _, hget'⟩ := entryAt_eq_some hrelid'
  obtain ⟨hlists, hdisj⟩ := List.nodup_flatten.mp hnodup
  obtain ⟨hlt, hl⟩ := List.getElem?_eq_some_iff.mp hrelids
  obtain ⟨hlt', hl'⟩ := List.getElem?_eq_some_iff.mp hrelids'
  have hlevel : v.varlevelsup = w.varlevelsup := by
    rw [List.pairwise_iff_getElem] at hdisj
    rcases Nat.lt_trichotomy v.varlevelsup w.varlevelsup with h | h | h
    · have hd := hdisj _ _ hlt hlt' h
      rw [hl, hl'] at hd
      exact absurd (List.mem_of_getElem? hget') (hd (List.mem_of_getElem? hget))
    · exact h
    · have hd := hdisj _ _ hlt' hlt h
      rw [hl, hl'] at hd
      exact absurd (List.mem_of_getElem? hget) (hd (List.mem_of_getElem? hget'))
  obtain rfl : relids = relids' := by
    rw [hlevel, hrelids'] at hrelids
    exact (Option.some.inj hrelids).symm
  have hno : v.varno - 1 = w.varno - 1 :=
    (List.getElem?_inj (List.getElem?_eq_some_iff.mp hget).1
      (hlists _ (List.mem_of_getElem? hrelids))).mp (hget.trans hget'.symm)
  obtain ⟨varno, varattno, varlevelsup⟩ := v
  obtain ⟨varno', varattno', varlevelsup'⟩ := w
  simp only [Var.mk.injEq] at hattno hlevel hno h1 h1' ⊢
  exact ⟨by omega, hattno.symm, hlevel⟩

/-- Inside a sub-select, the columns of its own tables are left to check. -/
theorem NonNull.push {relids : List Oid} {z : List (Nat × Row α)} {K K' : Finset Column}
    (h : NonNull os ρ K) (h' : NonNull (relids :: os) (ρ.push z) K')
    (hsub : ∀ col ∈ K, col.1 ∈ relids → col ∈ K') : NonNull (relids :: os) (ρ.push z) K := by
  intro v col hv hcol
  cases hl : v.varlevelsup with
  | zero =>
    refine h' v col hv (hsub col hcol ?_)
    have hv' : columnOf [relids] v = some col := by
      simpa [columnOf, hl] using hv
    simpa using mem_flatten_of_columnOf hv'
  | succ l =>
    have hv' : columnOf os ⟨v.varno, v.varattno, l⟩ = some col := by
      simpa [columnOf, hl] using hv
    have := h ⟨v.varno, v.varattno, l⟩ col hv' hcol
    simpa [Env.column, Env.row, hl] using this

/-! ### Conditions at a polarity -/

/-- The condition is true, or, for `false`, it is not. -/
def CountsAs (I : Interp α) (D : Database α) (p : Bool) (a : Node α) (ρ : Env α) : Prop :=
  evalCond I D a ρ = .true ↔ p = true

/-- An AND is true, and an OR is not true, only if all arguments are; in the other two cases one
argument is enough. -/
def joint (boolop : BoolExprType) (p : Bool) : Bool := (boolop == .andExpr) == p

theorem countsAs_true {a : Node α} : CountsAs I D true a ρ ↔ evalCond I D a ρ = .true := by
  simp [CountsAs]

theorem countsAs_false {a : Node α} : CountsAs I D false a ρ ↔ evalCond I D a ρ ≠ .true := by
  simp [CountsAs]

theorem countsAs_joint {boolop : BoolExprType} (hop : boolop ≠ .notExpr) {p : Bool}
    (hj : joint boolop p = true) {args : List (Node α)} :
    CountsAs I D p (.boolExpr boolop args) ρ ↔ ∀ a ∈ args, CountsAs I D p a ρ := by
  cases boolop with
  | notExpr => exact absurd rfl hop
  | andExpr =>
    cases p with
    | true => simp only [countsAs_true, evalCond_and_eq_true]
    | false => cases hj
  | orExpr =>
    cases p with
    | true => cases hj
    | false => simp only [countsAs_false, ne_eq, evalCond_or_eq_true, not_exists, not_and]

theorem countsAs_not_joint {boolop : BoolExprType} (hop : boolop ≠ .notExpr) {p : Bool}
    (hj : joint boolop p = false) {args : List (Node α)} :
    CountsAs I D p (.boolExpr boolop args) ρ ↔ ∃ a ∈ args, CountsAs I D p a ρ := by
  cases boolop with
  | notExpr => exact absurd rfl hop
  | andExpr =>
    cases p with
    | true => cases hj
    | false =>
      simp only [countsAs_false, ne_eq, evalCond_and_eq_true, not_forall, exists_prop]
  | orExpr =>
    cases p with
    | true => simp only [countsAs_true, evalCond_or_eq_true]
    | false => cases hj

theorem countsAs_not {a : Node α} (ha : a.isExists) {p : Bool} :
    CountsAs I D p (.boolExpr .notExpr [a]) ρ ↔ CountsAs I D (!p) a ρ := by
  have hnot : evalCond I D (.boolExpr .notExpr [a]) ρ = .true ↔ ¬evalCond I D a ρ = .true := by
    rw [evalCond_not, Kleene.not_eq_true, ← ne_eq, evalCond_exists_ne_true ha]
  cases p with
  | true => rw [Bool.not_true, countsAs_true, countsAs_false, hnot]
  | false => rw [Bool.not_false, countsAs_true, countsAs_false, ne_eq, hnot, not_not]

theorem countsAs_exists_true {targetList : List (Node α)} {relids : List Oid} {quals : Node α} :
    CountsAs I D true (existsFrom targetList relids quals) ρ ↔
      ∃ z ∈ combinations (relids.map D) (List.range' 1 relids.length),
        CountsAs I D true quals (ρ.push z) := by
  simp only [countsAs_true, evalCond_existsFrom_eq_true]

theorem countsAs_exists_false {targetList : List (Node α)} {relids : List Oid} {quals : Node α} :
    CountsAs I D false (existsFrom targetList relids quals) ρ ↔
      ∀ z ∈ combinations (relids.map D) (List.range' 1 relids.length),
        CountsAs I D false quals (ρ.push z) := by
  simp only [countsAs_false, ne_eq, evalCond_existsFrom_eq_true, not_exists, not_and]

theorem notNull_boolExpr {boolop : BoolExprType} (hop : boolop ≠ .notExpr) (p : Bool) (os : Scopes)
    (args : List (Node α)) :
    notNull p os (.boolExpr boolop args) = merge (joint boolop p) (args.map (notNull p os)) := by
  cases boolop with
  | notExpr => exact absurd rfl hop
  | andExpr | orExpr => cases p <;> simp only [notNull, notNullList_eq_map] <;> rfl

/-! ### Soundness -/

mutual

/-- Each sub-select that counts negatively has rows in its tables if the set of its WHERE has a
column of an enclosing query. -/
def supported (D : Database α) : Scopes → Bool → Node α → Bool
  | os, p, .boolExpr .notExpr args => supportedList D os (!p) args
  | os, p, .boolExpr _ args => supportedList D os p args
  | os, p, .subLink _ _ subselect => supported D os p subselect
  | os, p, .query _ rtable _ quals =>
    (p || (notNull false (rtable.map relidOf :: os) quals).filter
      (fun col => col.1 ∈ os.flatten) = ∅ ||
      (rtable.map relidOf).all fun relid => !(D relid).isEmpty) &&
    supported D (rtable.map relidOf :: os) p quals
  | _, _, _ => true

def supportedList (D : Database α) : Scopes → Bool → List (Node α) → Bool
  | _, _, [] => true
  | os, p, node :: nodes => supported D os p node && supportedList D os p nodes

end

theorem supportedList_iff {p : Bool} {nodes : List (Node α)} :
    supportedList D os p nodes = true ↔ ∀ a ∈ nodes, supported D os p a = true := by
  induction nodes with
  | nil => simp [supportedList]
  | cons a nodes ih => simp [supportedList, ih]

theorem supported_boolExpr {boolop : BoolExprType} (hop : boolop ≠ .notExpr) {p : Bool}
    {args : List (Node α)} :
    supported D os p (.boolExpr boolop args) = true ↔ ∀ a ∈ args, supported D os p a = true := by
  cases boolop with
  | notExpr => exact absurd rfl hop
  | andExpr | orExpr => rw [supported, supportedList_iff]; simp

theorem supported_not {p : Bool} {a : Node α} :
    supported D os p (.boolExpr .notExpr [a]) = supported D os (!p) a := by
  simp [supported, supportedList]

theorem supported_existsFrom {p : Bool} {targetList : List (Node α)} {relids : List Oid}
    {quals : Node α} :
    supported D os p (existsFrom targetList relids quals) = true ↔
      (p = false → ∀ col ∈ notNull false (relids :: os) quals, col.1 ∈ os.flatten →
        ∀ relid ∈ relids, D relid ≠ []) ∧ supported D (relids :: os) p quals = true := by
  rw [existsFrom, selectFrom, supported, supported, map_relidOf_baseTable]
  cases p with
  | true => simp
  | false =>
    simp only [Bool.false_or, Bool.and_eq_true, Bool.or_eq_true, decide_eq_true_eq,
      Finset.filter_eq_empty_iff, List.all_eq_true, Bool.not_eq_true', List.isEmpty_eq_false_iff,
      forall_const, ne_eq]
    refine and_congr_left fun _ => ⟨?_, fun h => ?_⟩
    · rintro (h | h) col hcol hin
      · exact absurd hin (h hcol)
      · exact h
    · by_cases hall : ∀ col ∈ notNull false (relids :: os) quals, col.1 ∉ os.flatten
      · exact .inl fun col hcol => hall col hcol
      · push Not at hall
        obtain ⟨col, hcol, hin⟩ := hall
        exact .inr (h col hcol hin)

theorem nonNull_boolExpr {boolop : BoolExprType} (hop : boolop ≠ .notExpr) {p : Bool}
    {args : List (Node α)} (hne : args ≠ [])
    (hargs : ∀ a ∈ args, CountsAs I D p a ρ → NonNull os ρ (notNull p os a))
    (h : CountsAs I D p (.boolExpr boolop args) ρ) :
    NonNull os ρ (notNull p os (.boolExpr boolop args)) := by
  rw [notNull_boolExpr hop]
  intro v col hv hcol
  cases hj : joint boolop p with
  | true =>
    rw [hj, mem_merge_true] at hcol
    obtain ⟨_, hs, hcol⟩ := hcol
    obtain ⟨a, ha, rfl⟩ := List.mem_map.mp hs
    exact hargs a ha ((countsAs_joint hop hj).mp h a ha) v col hv hcol
  | false =>
    rw [hj, mem_merge_false (by simpa using hne)] at hcol
    obtain ⟨a, ha, hcounts⟩ := (countsAs_not_joint hop hj).mp h
    exact hargs a ha hcounts v col hv (hcol _ (List.mem_map_of_mem ha))

/-- Where a condition counts as `p`, none of the columns of its set is NULL. -/
theorem notNull_sound {atom : Scopes → Node α → Prop}
    (hatom : ∀ os a, atom os a → ∀ p ρ, CountsAs I D p a ρ → NonNull os ρ (notNull p os a))
    {a : Node α} (h : Cond atom False os a) {p : Bool} (hsup : supported D os p a = true)
    (hp : CountsAs I D p a ρ) : NonNull os ρ (notNull p os a) := by
  induction h generalizing ρ p with
  | leaf ha => exact hatom _ _ ha p ρ hp
  | null =>
    rw [show notNull p _ (.null : Node α) = ∅ by cases p <;> rfl]
    exact nonNull_empty
  | and hne _ ih =>
    have hargs := (supported_boolExpr (by simp)).mp hsup
    exact nonNull_boolExpr (by simp) hne (fun a ha => ih a ha (hargs a ha)) hp
  | or hne _ ih =>
    have hargs := (supported_boolExpr (by simp)).mp hsup
    exact nonNull_boolExpr (by simp) hne (fun a ha => ih a ha (hargs a ha)) hp
  | not hex _ ih =>
    rw [notNull_not]
    exact ih (supported_not ▸ hsup) ((countsAs_not (hex.resolve_left id)).mp hp)
  | exist _ ih =>
    obtain ⟨hrows, hquals⟩ := supported_existsFrom.mp hsup
    rw [notNull_existsFrom]
    cases p with
    | true =>
      obtain ⟨z, _, hz⟩ := countsAs_exists_true.mp hp
      exact (ih hquals hz).pop
    | false =>
      intro v col hv hcol
      obtain ⟨z, hz⟩ := exists_combination_of_ne_nil
        (hrows rfl col hcol (mem_flatten_of_columnOf hv))
      exact (ih hquals (countsAs_exists_false.mp hp z hz)).pop v col hv hcol

end Infed
