import Infed.Exist.Preserves
import Infed.Exist.Scoped

/-! Whether the EXISTS that `rewrite_connexe` adds asks for what it should: a row of each table of
the component on which the comparisons that mention them are true.  `create_from_query_list` gives
its sub-select one FROM reference, so that this can only be so for a component of one table; and the
captured comparisons keep their columns, so that these have to be of the first FROM entry. -/

namespace Infed.Exist

open Self (Leaf)

variable {α : Type} {c : List Nat} {quals : Node α} {I : Interp α} {D : Database α}

/-! ### Faithful sub-selects -/

/-- The sub-select of the EXISTS that a round adds. -/
def addedSubselect : Node α → Node α
  | .query _ _ _ (.boolExpr .andExpr [_, .subLink _ _ subselect]) => subselect
  | _ => .null

/-- The conjuncts of the WHERE of the sub-select. -/
def constraints : Node α → List (Node α)
  | .null => []
  | .list list => list
  | a => [a]

/-- The column `v'` of the sub-select is the column `v` of the query over `rtable`. -/
inductive SameColumn (rtable : List (Node α)) (sub : Node α) (v v' : Var) : Prop where
  | own : v.varlevelsup = 0 → v'.varlevelsup = 0 → v'.varattno = v.varattno →
    v'.varno ∈ sub.fromlist → sub.rtable[v'.varno - 1]? = rtable[v.varno - 1]? →
    SameColumn rtable sub v v'
  | outer : v.varlevelsup ≠ 0 → v'.varlevelsup = v.varlevelsup + 1 → v'.varno = v.varno →
    v'.varattno = v.varattno → SameColumn rtable sub v v'

inductive SameTerm (rtable : List (Node α)) (sub : Node α) : Node α → Node α → Prop where
  | column {v v'} : SameColumn rtable sub v v' → SameTerm rtable sub (.var v) (.var v')
  | constant {value} : SameTerm rtable sub (.const value) (.const value)

inductive SameComparison (rtable : List (Node α)) (sub : Node α) : Node α → Node α → Prop where
  | mk {opno args args'} : List.Forall₂ (SameTerm rtable sub) args args' →
    SameComparison rtable sub (.opExpr opno args) (.opExpr opno args')

/-- Rows of the tables `c` on which the comparisons `cs` are true. -/
def JointRow (I : Interp α) (D : Database α) (rtable : List (Node α)) (c : List Nat)
    (cs : List (Node α)) (ρ : Env α) : Prop :=
  ∃ f : Nat → Row α, (∀ v ∈ c, f v ∈ (evalRtable I D rtable (ρ.push [])).getD (v - 1) []) ∧
    ∀ a ∈ cs, evalCond I D a (ρ.push (c.map fun v => (v, f v))) = .true

/-- The sub-select ranges over the tables `c` of `rtable`, its WHERE is the conjunction of `cs`, and
so it has a row, wherever it stands in the query, exactly if there is a joint row. -/
structure Faithful (c : List Nat) (rtable cs : List (Node α)) (sub : Node α) : Prop where
  tables : (sub.fromlist.map fun i => sub.rtable[i - 1]?).Perm (c.map fun v => rtable[v - 1]?)
  comparisons : List.Forall₂ (SameComparison rtable sub) cs (constraints sub.quals)
  hasRows : ∀ I D (ρ : Env α) z,
    evalQuery I D sub (ρ.push z) ≠ [] ↔ JointRow I D rtable c cs ρ

/-! ### One round -/

/-- The sub-select of a round has one FROM reference. -/
theorem fromlist_addedSubselect {q q' : Node α} (h : rewriteConnexe c q = some q') :
    (addedSubselect q').fromlist = [1] := by
  cases q with
  | query targetList rtable fromlist quals =>
    simp only [rewriteConnexe, Option.bind_eq_bind, Option.bind_eq_some_iff] at h
    obtain ⟨_, _, _, _, _, _, _, _, _, _, _, _, hq'⟩ := h
    cases hq'
    rfl
  | _ => cases h

/-! ### Columns of the first FROM entry -/

/-- All columns are of the first FROM entry. -/
def OfFirst (vs : List Var) : Prop := ∀ v ∈ vs, v.varno = 1 ∧ v.varlevelsup = 0

theorem Residual.comparisons_terms {a : Node α} (h : Residual a) :
    ∀ b ∈ comparisons a, ∃ opno args, b = .opExpr opno args ∧ ∀ t ∈ args, Leaf t := by
  induction h with
  | comparison hargs =>
    intro b hb
    obtain rfl := List.mem_singleton.mp hb
    exact ⟨_, _, rfl, hargs⟩
  | bool _ ih =>
    intro b hb
    rw [comparisons, comparisonsList_eq_flatMap] at hb
    obtain ⟨a, ha, hba⟩ := List.mem_flatMap.mp hb
    exact ih a ha b hba
  | _ => simp [comparisons]

/-- If a comparison that is captured as it is has the columns that it had, they are of the first
FROM entry. -/
theorem SameComparison.ofFirst {rtable : List (Node α)} {sub a : Node α}
    (h : SameComparison rtable sub a a) (hfrom : sub.fromlist = [1])
    (hterms : ∃ opno args, a = .opExpr opno args ∧ ∀ t ∈ args, Leaf t) : OfFirst (columnsOf a) := by
  obtain ⟨opno, args, rfl, hterms⟩ := hterms
  obtain ⟨hargs⟩ := h
  intro v hv
  obtain ⟨t, ht, hvt⟩ := mem_columnsOfList.mp hv
  have hsame := List.forall₂_same.mp hargs t ht
  cases hterms t ht with
  | constant => simp [columnsOf] at hvt
  | column =>
    obtain rfl := List.mem_singleton.mp hvt
    cases hsame with
    | column hcolumn =>
      cases hcolumn with
      | own hlevel _ _ hmem =>
        rw [hfrom] at hmem
        exact ⟨List.mem_singleton.mp hmem, hlevel⟩
      | outer _ hlevel => omega

theorem OfFirst.sameComparison {rtable : List (Node α)} {sub : Node α} {opno : Oid}
    {args : List (Node α)} (h : OfFirst (columnsOfList args)) (hterms : ∀ t ∈ args, Leaf t)
    (hfrom : sub.fromlist = [1]) (hentry : sub.rtable[0]? = rtable[0]?) :
    SameComparison rtable sub (.opExpr opno args) (.opExpr opno args) := by
  refine .mk (List.forall₂_same.mpr fun t ht => ?_)
  cases hterms t ht with
  | constant => exact .constant
  | @column v =>
    obtain ⟨hno, hlevel⟩ := h v (mem_columnsOfList.mpr ⟨_, ht, List.mem_cons_self⟩)
    refine .column (.own hlevel hlevel rfl ?_ ?_)
    · rw [hfrom, hno]
      exact List.mem_cons_self
    · rw [hno]
      exact hentry

/-- A comparison of such columns depends on the row of the first FROM entry alone. -/
theorem evalCond_ofFirst {opno : Oid} {args : List (Node α)} (hterms : ∀ t ∈ args, Leaf t)
    (hfirst : OfFirst (columnsOfList args)) (ρ : Env α) (z : List (Nat × Row α)) (r : Row α) :
    evalCond I D (.opExpr opno args) ((ρ.push z).push [(1, r)]) =
      evalCond I D (.opExpr opno args) (ρ.push [(1, r)]) := by
  refine evalCond_agree _ ⟨fun v hv => ?_, rfl⟩
  obtain ⟨t, ht, hvt⟩ := mem_referencesList.mp hv
  cases hterms t ht with
  | constant => simp [references] at hvt
  | column =>
    obtain rfl := List.mem_singleton.mp hvt
    obtain ⟨hno, hlevel⟩ := hfirst _ (mem_columnsOfList.mpr ⟨_, ht, List.mem_cons_self⟩)
    simp [Env.column, Env.row, hno, hlevel]

/-! ### One table -/

/-- The rows of a sub-select over one FROM entry with the constraints `cs`. -/
theorem evalQuery_added {targetList cs : List (Node α)} {rte : Node α} {ρ : Env α} :
    evalQuery I D (.query targetList [rte] [1] (constraintList cs)) ρ ≠ [] ↔
      ∃ r ∈ evalRte I D rte (ρ.push []), ∀ a ∈ cs, evalCond I D a (ρ.push [(1, r)]) = .true := by
  have hcond : ∀ ρ' : Env α, evalCond I D (constraintList cs) ρ' = .true ↔
      ∀ a ∈ cs, evalCond I D a ρ' = .true := by
    intro ρ'
    cases cs with
    | nil => simp [constraintList, evalCond]
    | cons a cs => simp [constraintList, evalCond, evalConds_eq_map, Kleene.conj_eq_true_iff]
  rw [evalQuery_ne_nil, evalRtable_eq_map, List.map_cons, List.map_nil, combinations_one]
  simp only [List.mem_map, exists_exists_and_eq_and, hcond]

/-- The sub-select over one table, with the comparisons that mention it, all of whose columns are of
the first FROM entry, is faithful. -/
theorem faithful_single {k : Nat} {rtable cs targetList : List (Node α)} {rte : Node α}
    (hrte : rtable[k - 1]? = some rte) (hclosed : Closed rte)
    (hterms : ∀ a ∈ cs, ∃ opno args, a = .opExpr opno args ∧ ∀ t ∈ args, Leaf t)
    (hmentions : ∀ a ∈ cs, mentions [k] a = true) (hfirst : ∀ a ∈ cs, OfFirst (columnsOf a)) :
    Faithful [k] rtable cs (.query targetList [rte] [1] (constraintList cs)) := by
  -- a comparison that mentions the table has a column of it
  have hone : ∀ a ∈ cs, k = 1 := by
    intro a ha
    obtain ⟨opno, args, rfl, hargs⟩ := hterms a ha
    obtain ⟨t, ht, hcolumn⟩ := List.any_eq_true.mp (hmentions _ ha)
    cases hargs t ht with
    | constant => simp [isColumnOf] at hcolumn
    | @column v =>
      have hv := hfirst _ ha v (mem_columnsOfList.mpr ⟨_, ht, List.mem_cons_self⟩)
      have hk : v.varno = k := by
        simpa [isColumnOf, hv.2] using hcolumn
      omega
  have hconstraints : constraints (constraintList cs) = cs := by
    cases cs <;> rfl
  refine ⟨?_, ?_, fun I D ρ z => ?_⟩
  · simp [Node.fromlist, Node.rtable, hrte]
  · show List.Forall₂ _ cs (constraints (constraintList cs))
    rw [hconstraints]
    refine List.forall₂_same.mpr fun a ha => ?_
    obtain ⟨opno, args, rfl, hargs⟩ := hterms a ha
    refine (hfirst _ ha).sameComparison hargs rfl ?_
    obtain rfl := hone _ ha
    simp [Node.rtable, hrte]
  · have hrows : (evalRtable I D rtable (ρ.push [])).getD (k - 1) [] =
        evalRte I D rte (ρ.push []) := by
      rw [evalRtable_eq_map]
      simp [List.getD_eq_getElem?_getD, hrte]
    have hsame : evalRte I D rte ((ρ.push z).push []) = evalRte I D rte (ρ.push []) :=
      hclosed I D rfl
    have hcond : ∀ r, (∀ a ∈ cs, evalCond I D a ((ρ.push z).push [(1, r)]) = .true) ↔
        ∀ a ∈ cs, evalCond I D a (ρ.push [(k, r)]) = .true := by
      refine fun r => forall₂_congr fun a ha => ?_
      obtain ⟨opno, args, rfl, hargs⟩ := hterms a ha
      rw [evalCond_ofFirst hargs (hfirst _ ha), hone _ ha]
    rw [evalQuery_added, hsame]
    simp only [hcond, JointRow, hrows, List.mem_singleton, forall_eq, List.map_cons, List.map_nil]
    constructor
    · rintro ⟨r, hr, htrue⟩
      exact ⟨fun _ => r, hr, htrue⟩
    · rintro ⟨f, hf, htrue⟩
      exact ⟨f k, hf, htrue⟩

/-! ### `rewrite_connexe` -/

/-- The WHERE is not itself a comparison that mentions the component, and the flag which a null test
on the component sets meets no other comparison. -/
def CapturesOwn (c : List Nat) (quals : Node α) : Prop :=
  (∀ opno args, quals = .opExpr opno args → mentions c quals = false) ∧
    strays c false quals = false

theorem CapturesOwn.capturedRoot (h : CapturesOwn c quals) (hresidual : Residual quals) :
    capturedRoot c quals = (comparisons quals).filter (mentions c) := by
  cases hresidual with
  | comparison => simp [Exist.capturedRoot, comparisons, h.1 _ _ rfl]
  | bool => exact (captured_eq_iff c false _).1 h.2
  | _ => rfl

theorem capturesOwn_of_length (hresidual : Residual quals)
    (h : ((comparisons quals).filter (mentions c)).length = (capturedRoot c quals).length) :
    CapturesOwn c quals := by
  cases hresidual with
  | @comparison opno args =>
    refine ⟨fun _ _ _ => ?_, rfl⟩
    by_contra hm
    simp [capturedRoot, comparisons, Bool.eq_true_of_not_eq_false hm] at h
  | bool =>
    refine ⟨fun _ _ he => (by cases he), ?_⟩
    by_contra hs
    have := (captured_eq_iff c false _).2 (Bool.eq_true_of_not_eq_false hs)
    exact absurd h (Nat.ne_of_lt this)
  | _ => exact ⟨fun _ _ he => (by cases he), rfl⟩

/-- `rewrite_connexe` builds a faithful sub-select exactly if the component is a single table,
`mutator_conn` captures the comparisons that mention it and no others, and all their columns are of
the first FROM entry, as the table is then itself. -/
theorem rewriteConnexe_faithful_iff {targetList rtable : List (Node α)} {fromlist : List Nat}
    (htarget : Node.areExpressions targetList = true) (hclosed : ∀ rte ∈ rtable, Closed rte)
    (hresidual : Residual quals) (hfrom : ∀ v ∈ c, 1 ≤ v ∧ v ≤ rtable.length) :
    (∃ q', rewriteConnexe c (.query targetList rtable fromlist quals) = some q' ∧
      Faithful c rtable ((comparisons quals).filter (mentions c)) (addedSubselect q')) ↔
      c.length = 1 ∧ CapturesOwn c quals ∧
        ∀ a ∈ comparisons quals, mentions c a = true → OfFirst (columnsOf a) := by
  have hround : ∀ k, c = [k] → ∃ rte q', rtable[k - 1]? = some rte ∧
      rewriteConnexe c (.query targetList rtable fromlist quals) = some q' ∧
      addedSubselect q' = .query (keptTargets (columnInside [k]) targetList) [rte] [1]
        (constraintList (capturedRoot [k] quals)) := by
    rintro k rfl
    obtain ⟨h1, hk⟩ := hfrom k List.mem_cons_self
    have hrte : rtable[k - 1]? = some rtable[k - 1] := List.getElem?_eq_getElem (by omega)
    obtain ⟨flag, hcaptures⟩ := captures_root (c := [k]) hresidual
    exact ⟨_, _, hrte, rewriteConnexe_single htarget hcaptures hresidual.stripRoot.isExpression
      hrte, rfl⟩
  have hterms := hresidual.comparisons_terms
  constructor
  · rintro ⟨q', hrun, htables, hcomparisons, _⟩
    have hlength := htables.length_eq
    rw [fromlist_addedSubselect hrun] at hlength
    obtain ⟨k, rfl⟩ := List.length_eq_one_iff.mp
      (show c.length = 1 by simpa using hlength.symm)
    obtain ⟨rte, q'', _, hrun', hadded⟩ := hround k rfl
    obtain rfl := Option.some.inj (hrun.symm.trans hrun')
    have hconstraints : constraints (addedSubselect q').quals = capturedRoot [k] quals := by
      rw [hadded]
      simp only [Node.quals]
      cases capturedRoot [k] quals <;> rfl
    rw [hconstraints] at hcomparisons
    have hown := capturesOwn_of_length hresidual hcomparisons.length_eq
    rw [hown.capturedRoot hresidual, List.forall₂_same] at hcomparisons
    refine ⟨rfl, hown, fun a ha hm => ?_⟩
    exact (hcomparisons a (List.mem_filter.mpr ⟨ha, hm⟩)).ofFirst
      (fromlist_addedSubselect hrun) (hterms a ha)
  · rintro ⟨hlength, hown, hfirst⟩
    obtain ⟨k, rfl⟩ := List.length_eq_one_iff.mp hlength
    obtain ⟨rte, q', hrte, hrun, hadded⟩ := hround k rfl
    refine ⟨q', hrun, ?_⟩
    rw [hadded, hown.capturedRoot hresidual]
    exact faithful_single hrte (hclosed rte (List.mem_of_getElem? hrte))
      (fun a ha => hterms a (List.mem_of_mem_filter ha)) (fun a ha => (List.mem_filter.mp ha).2)
      fun a ha => hfirst a (List.mem_of_mem_filter ha) (List.mem_filter.mp ha).2

/-- Of `r, s` in `o.a = r.a`, the component `s` becomes a faithful EXISTS. -/
theorem rewriteConnexe_faithful_iff_single :
    (components 2 (.boolExpr .andExpr [(.opExpr 96 [.var ⟨1, 1, 1⟩, .var ⟨1, 1, 0⟩] : Node Int)])
      ).listComposantesConnexes = [[2]] ∧
      ∃ q', rewriteConnexe [2] (.query [] [baseTable 1, baseTable 2] [1, 2] (.boolExpr .andExpr
          [(.opExpr 96 [.var ⟨1, 1, 1⟩, .var ⟨1, 1, 0⟩] : Node Int)])) = some q' ∧
        Faithful [2] [baseTable 1, baseTable 2] ((comparisons (.boolExpr .andExpr
          [.opExpr 96 [.var ⟨1, 1, 1⟩, .var ⟨1, 1, 0⟩]])).filter (mentions [2]))
          (addedSubselect q') := by
  have hclosed : ∀ rte ∈ [(baseTable 1 : Node Int), baseTable 2], Closed rte := by
    simpa using ⟨closed_of_references rfl, closed_of_references rfl⟩
  have hresidual : Residual (.boolExpr .andExpr
      [(.opExpr 96 [.var ⟨1, 1, 1⟩, .var ⟨1, 1, 0⟩] : Node Int)]) := by
    refine .bool ?_
    simpa using .comparison (by simpa using ⟨.column, .column⟩)
  refine ⟨by decide, (rewriteConnexe_faithful_iff rfl hclosed hresidual (by simp)).mpr
    ⟨rfl, ⟨fun _ _ h => (by cases h), by decide⟩, ?_⟩⟩
  simp [comparisons, comparisonsList, mentions, isColumnOf]

/-- Every table has one row with the value 1. -/
def oneRow : Database Int := fun _ => [[some 1]]

/-- Of `r, s, t` in `o.a = r.a AND s.a = t.a`, the EXISTS for `s, t` ranges over `s` alone, its
comparison has no column of it, and so it has no row where `s` and `t` have joint ones. -/
theorem rewriteConnexe_faithful_fails :
    (components 3 (.boolExpr .andExpr (correlatedAnd 2 3))).listComposantesConnexes = [[2, 3]] ∧
      ∃ q', rewriteConnexe [2, 3] (fromEntries [1, 2, 3] baseTable [] (correlatedAnd 2 3)) =
          some q' ∧
        (addedSubselect q').fromlist = [1] ∧
        constraints (addedSubselect q').quals = [.opExpr 96 [.var ⟨2, 1, 0⟩, .var ⟨3, 1, 0⟩]] ∧
        evalQuery intInterp oneRow (addedSubselect q') (Env.empty.push []) = [] ∧
        JointRow intInterp oneRow [baseTable 1, baseTable 2, baseTable 3] [2, 3]
          [.opExpr 96 [.var ⟨2, 1, 0⟩, .var ⟨3, 1, 0⟩]] Env.empty := by
  refine ⟨by decide, _, rfl, rfl, rfl, rfl, fun _ => [some 1], by decide, ?_⟩
  simp only [List.forall_mem_cons]
  exact ⟨rfl, by simp⟩

end Infed.Exist
