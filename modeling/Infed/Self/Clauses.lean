import Infed.Self.Conjuncts
import Infed.Self.Gather
import Infed.Self.Rows

/-! Constraints that are ORs.  An OR on one table moves into FROM like a comparison, but
`add_constrain` looks for it under no table, so that it becomes an entry of its own, and a table can
have several entries; later constraints on the table join the first one.  `rewrite_self` then wraps
the table in one sub-select for each entry, and the rows are those that meet all of them. -/

namespace Infed.Self

variable {α : Type} {n i : Nat} {cat : Catalog} {I : Interp α} {D : Database α}

/-! ### Clauses on one table -/

/-- A comparison or null test on the `i`-th FROM entry, or an OR of those. -/
inductive OnTable (i : Nat) : Node α → Prop where
  | one {a} : Local i a → OnTable i a
  | or {args} : args ≠ [] → (∀ a ∈ args, Local i a) → OnTable i (.boolExpr .orExpr args)

theorem Own.leaf {a : Node α} (h : Own i a) : Leaf a := by
  cases h with
  | column => exact .column
  | constant => exact .constant

theorem Local.test {a : Node α} (h : Local i a) : Test a := by
  cases h with
  | comparison h _ => exact .comparison fun a ha => (h a ha).leaf
  | nullTest => exact .nullTest .column

theorem OnTable.clause {a : Node α} (h : OnTable i a) : Clause a := by
  cases h with
  | one h => exact .test h.test
  | or _ h => exact .or fun a ha => (h a ha).test

theorem Local.tableOf_column {a : Node α} (h : Local i a) {v : Var} (hv : v ∈ columnsOf a) :
    tableOf v = some (i, 0) := by
  cases h with
  | comparison h _ =>
    obtain ⟨b, hb, hvb⟩ := mem_columnsOfList.mp hv
    cases h b hb with
    | column =>
      rw [List.mem_singleton.mp hvb]
      rfl
    | constant => cases hvb
  | nullTest =>
    rw [List.mem_singleton.mp hv]
    rfl

theorem Local.exists_column {a : Node α} (h : Local i a) : ∃ v, v ∈ columnsOf a := by
  cases h with
  | comparison _ hvar =>
    obtain ⟨v, hv⟩ := hvar
    exact ⟨v, mem_columnsOfList.mpr ⟨_, hv, List.mem_cons_self⟩⟩
  | nullTest => exact ⟨_, List.mem_cons_self⟩

/-- The condition has columns, all of the `i`-th FROM entry, and no sub-select. -/
structure About (i : Nat) (t : Node α) : Prop where
  expression : t.isExpression = true
  hasColumn : columnsOf t ≠ []
  ofTable : ∀ v ∈ columnsOf t, tableOf v = some (i, 0)
  noSubselect : innerColumns t = []

/-- The arguments of a condition. -/
theorem about_list {nodes : List (Node α)} (hne : nodes ≠ []) (h : ∀ a ∈ nodes, About i a) :
    Node.areExpressions nodes = true ∧ columnsOfList nodes ≠ [] ∧
      (∀ v ∈ columnsOfList nodes, tableOf v = some (i, 0)) ∧ innerColumnsList nodes = [] := by
  refine ⟨Node.areExpressions_iff.mpr fun a ha => (h a ha).expression, ?_, fun v hv => ?_, ?_⟩
  · obtain ⟨a, nodes, rfl⟩ := List.exists_cons_of_ne_nil hne
    exact List.append_ne_nil_of_left_ne_nil (h a List.mem_cons_self).hasColumn _
  · obtain ⟨a, ha, hva⟩ := mem_columnsOfList.mp hv
    exact (h a ha).ofTable v hva
  · clear hne
    induction nodes with
    | nil => rfl
    | cons a nodes ih =>
      rw [List.forall_mem_cons] at h
      rw [innerColumnsList, h.1.noSubselect, ih h.2]
      rfl

theorem Local.about {a : Node α} (h : Local i a) : About i a := by
  have hcolumn := List.ne_nil_of_mem h.exists_column.choose_spec
  have htable : ∀ v ∈ columnsOf a, tableOf v = some (i, 0) := fun v => h.tableOf_column
  cases h with
  | comparison h _ =>
    refine ⟨Node.areExpressions_iff.mpr fun a ha => ?_, hcolumn, htable, ?_⟩
    · cases h a ha <;> rfl
    · rw [innerColumns, List.eq_nil_iff_forall_not_mem]
      intro v hv
      obtain ⟨a, ha, hva⟩ := mem_innerColumnsList.mp hv
      cases h a ha <;> cases hva
  | nullTest => exact ⟨rfl, hcolumn, htable, rfl⟩

theorem OnTable.about {a : Node α} (h : OnTable i a) : About i a := by
  cases h with
  | one h => exact h.about
  | or hne h =>
    obtain ⟨hexpr, hcolumn, htable, hnone⟩ := about_list hne fun a ha => (h a ha).about
    exact ⟨hexpr, hcolumn, htable, hnone⟩

/-- A comparison of columns of two tables. -/
theorem Clause.linking (opno : Oid) (v w : Var) :
    Clause (.opExpr opno [.var v, .var w] : Node α) :=
  .test (.comparison (by simpa using ⟨.column, .column⟩))

theorem takes_linking {v w : Var} (h : tableOf v ≠ tableOf w) (opno : Oid) :
    takes (.opExpr opno [.var v, .var w] : Node α) = false := by
  simpa [takes, columnsOf, columnsOfList, verdict] using h.symm

theorem OnTable.oneTable {a : Node α} (h : OnTable i a) : OneTable a :=
  ⟨h.about.hasColumn, fun v hv w hw => (h.about.ofTable v hv).trans (h.about.ofTable w hw).symm⟩

/-! ### Entries -/

/-- Constraints on the `i`-th FROM entry in bare lists, without AND. -/
inductive Bundle (i : Nat) : Node α → Prop where
  | clause {a} : OnTable i a → Bundle i a
  | list {elems} : elems ≠ [] → (∀ a ∈ elems, Bundle i a) → Bundle i (.list elems)

/-- An entry of `already_constrain_rel` for the `i`-th FROM entry. -/
inductive Bundled (i : Nat) : Node α → Prop where
  | bundle {t} : Bundle i t → Bundled i t
  | and {args} : args ≠ [] → (∀ a ∈ args, Bundle i a) → Bundled i (.boolExpr .andExpr args)

theorem OnTable.merge_eq {t c : Node α} (h : OnTable i t) :
    merge c t = .boolExpr .andExpr [t, c] := by
  cases h with
  | one h => exact h.merge_eq
  | or => rfl

theorem Bundle.merge_eq {t c : Node α} (h : Bundle i t) :
    merge c t = .boolExpr .andExpr [t, c] := by
  cases h with
  | clause h => exact h.merge_eq
  | list => rfl

theorem Bundled.merge {t c : Node α} (h : Bundled i t) (hc : OnTable i c) :
    Bundled i (merge c t) := by
  cases h with
  | bundle h =>
    rw [h.merge_eq]
    exact .and (by simp) (by simpa using ⟨h, .clause hc⟩)
  | and hne h =>
    refine .bundle (.list (by simp) ?_)
    simpa [or_imp, forall_and] using ⟨h, .clause hc⟩

/-- `temp_modifier_add` over nodes with columns of the `i`-th FROM entry. -/
theorem mutateList_mark {nodes : List (Node α)} (hne : nodes ≠ [])
    (h : ∀ a ∈ nodes, ∀ context, mutate tempModifierAdd a context = some (a, context.mark i))
    (context : TempContext α) :
    mutateList tempModifierAdd nodes context = some (nodes, context.mark i) := by
  obtain ⟨a, nodes, rfl⟩ := List.exists_cons_of_ne_nil hne
  rw [List.forall_mem_cons] at h
  refine mutateList_cons (h.1 context) (mutateList_fixed fun b hb => ?_)
  rw [h.2 b hb, TempContext.mark_mark]

theorem mutate_onTable {a : Node α} (h : OnTable i a) (context : TempContext α) :
    mutate tempModifierAdd a context = some (a, context.mark i) := by
  cases h with
  | one h => exact mutate_local h context
  | or hne h =>
    have hargs := mutateList_mark hne (fun a ha => mutate_local (h a ha)) context
    simp [mutate, tempModifierAdd, hargs]

theorem mutate_bundle {t : Node α} (h : Bundle i t) (context : TempContext α) :
    mutate tempModifierAdd t context = some (t, context.mark i) := by
  induction h generalizing context with
  | clause h => exact mutate_onTable h context
  | list hne _ ih => simp [mutate, tempModifierAdd, mutateList_mark hne ih]

/-- `temp_modifier_add` on an entry for a table that is not the constraint's. -/
theorem mutate_bundled_ne {t : Node α} (h : Bundled i t) {context : TempContext α}
    (htable : context.tableToAdd ≠ some (i, 0)) (hadd : context.toAdd = false) :
    mutate tempModifierAdd t context = some (t, context) := by
  have hmark : context.mark i = context := if_neg htable
  cases h with
  | bundle h => rw [mutate_bundle h, hmark]
  | and hne h =>
    have hargs := mutateList_mark hne (fun a ha => mutate_bundle (h a ha)) context
    rw [hmark] at hargs
    simp [mutate, tempModifierAdd, hargs, hadd]

/-- The loop of `add_constrain` at an entry for the constraint's table. -/
theorem addConstrainLoop_bundled {t c : Node α} (h : Bundled i t) (list : List (Node α)) :
    ∃ context, addConstrainLoop (t :: list) (makeTempContext c (some (i, 0))) =
      some (merge c t :: list, context) ∧ context.alreadyAdd = true := by
  have hmark : TempContext.mark i ⟨some (i, 0), c, false, false⟩ =
      ⟨some (i, 0), c, true, false⟩ := if_pos rfl
  cases h with
  | bundle h =>
    simp [addConstrainLoop, mutate_bundle h, h.merge_eq, hmark, makeTempContext,
      addConstrainLoop_alreadyAdd]
  | @and args hne h =>
    have hargs := mutateList_mark hne (fun a ha => mutate_bundle (h a ha))
      ⟨some (i, 0), c, false, false⟩
    rw [hmark] at hargs
    simp [addConstrainLoop, mutate, tempModifierAdd, hargs, merge, makeTempContext,
      addConstrainLoop_alreadyAdd]

/-! ### Adding a constraint -/

/-- The entries of a query of `n` tables, each with the number of its table. -/
def Entries (n : Nat) (gs : List (Nat × Node α)) : Prop :=
  ∀ g ∈ gs, Bundled g.1 g.2 ∧ 1 ≤ g.1 ∧ g.1 ≤ n

/-- A comparison or null test joins the first entry for its table, and an OR becomes an entry of
its own. -/
def addClause (i : Nat) (c : Node α) (gs : List (Nat × Node α)) : List (Nat × Node α) :=
  if (key c).isSome then insertConstraint i c gs else gs ++ [(i, c)]

theorem Local.key_eq {c : Node α} (h : Local i c) : key c = some (i, 0) := by
  obtain ⟨v, hv⟩ := h.exists_column
  have hkey : key c = (columnsOf c).head?.bind tableOf := by cases h <;> rfl
  obtain ⟨w, ws, hcolumns⟩ := List.exists_cons_of_ne_nil (List.ne_nil_of_mem hv)
  rw [hkey, hcolumns]
  exact h.tableOf_column (hcolumns ▸ List.mem_cons_self)

/-- The loop of `add_constrain` past entries for other tables. -/
theorem addConstrainLoop_ne {gs : List (Nat × Node α)} (hgs : ∀ g ∈ gs, Bundled g.1 g.2)
    {context : TempContext α} (htable : ∀ g ∈ gs, context.tableToAdd ≠ some (g.1, 0))
    (hadd : context.toAdd = false) :
    addConstrainLoop (gs.map Prod.snd) context = some (gs.map Prod.snd, context) := by
  induction gs with
  | nil => rfl
  | cons g gs ih =>
    rw [List.forall_mem_cons] at hgs htable
    cases halready : context.alreadyAdd with
    | true => exact addConstrainLoop_alreadyAdd halready _
    | false =>
      simp [addConstrainLoop, halready, mutate_bundled_ne hgs.1 htable.1 hadd, hadd,
        ih hgs.2 htable.2]

theorem addConstrain_eq {rel result : List (Node α)} {c : Node α} {table : Table}
    {context : TempContext α}
    (hloop : addConstrainLoop rel (makeTempContext c table) = some (result, context)) :
    addConstrain rel (makeTempContext c table) =
      some (if context.alreadyAdd then result else result ++ [context.constraintToAdd]) := by
  cases rel with
  | nil =>
    cases hloop
    rfl
  | cons t rel => simp [addConstrain, hloop]

/-- The loop of `add_constrain` for a comparison or null test. -/
theorem addConstrainLoop_insert {gs : List (Nat × Node α)} (hgs : ∀ g ∈ gs, Bundled g.1 g.2)
    (i : Nat) (c : Node α) :
    ∃ result context, addConstrainLoop (gs.map Prod.snd) (makeTempContext c (some (i, 0))) =
        some (result, context) ∧
      (if context.alreadyAdd then result else result ++ [context.constraintToAdd]) =
        (insertConstraint i c gs).map Prod.snd := by
  induction gs with
  | nil => exact ⟨_, _, rfl, rfl⟩
  | cons g gs ih =>
    obtain ⟨j, t⟩ := g
    rw [List.forall_mem_cons] at hgs
    by_cases hj : j = i
    · subst hj
      obtain ⟨context, hloop, halready⟩ :=
        addConstrainLoop_bundled (c := c) hgs.1 (gs.map Prod.snd)
      exact ⟨_, _, hloop, by simp [halready, insertConstraint]⟩
    · obtain ⟨result, context, hloop, hresult⟩ := ih hgs.2
      have hother : (makeTempContext c (some (i, 0))).tableToAdd ≠ some (j, 0) := by
        simpa [makeTempContext] using Ne.symm hj
      refine ⟨t :: result, context, ?_, ?_⟩
      · simp [addConstrainLoop, mutate_bundled_ne hgs.1 hother rfl, hloop]
        simp [makeTempContext]
      · rw [insertConstraint, if_neg hj, List.map_cons, ← hresult]
        split <;> rfl

theorem addConstrain_clause {gs : List (Nat × Node α)} (hgs : ∀ g ∈ gs, Bundled g.1 g.2)
    {c : Node α} (hc : OnTable i c) :
    addConstrain (gs.map Prod.snd) (makeTempContext c (key c)) =
      some ((addClause i c gs).map Prod.snd) := by
  cases hc with
  | one hc =>
    obtain ⟨result, context, hloop, hresult⟩ := addConstrainLoop_insert hgs i c
    rw [addClause, hc.key_eq, addConstrain_eq hloop, hresult]
    rfl
  | or hne h =>
    rw [addConstrain_eq (addConstrainLoop_ne hgs (by simp [makeTempContext, key]) rfl)]
    simp [makeTempContext, addClause, key]

theorem entries_insertConstraint {gs : List (Nat × Node α)} (hgs : Entries n gs) {c : Node α}
    (hc : OnTable i c) (h1 : 1 ≤ i) (hn : i ≤ n) : Entries n (insertConstraint i c gs) := by
  induction gs with
  | nil => simpa [Entries, insertConstraint] using ⟨.bundle (.clause hc), h1, hn⟩
  | cons g gs ih =>
    obtain ⟨j, t⟩ := g
    rw [Entries, List.forall_mem_cons] at hgs
    rw [insertConstraint]
    split
    · next hj =>
      subst hj
      exact List.forall_mem_cons.mpr ⟨⟨hgs.1.1.merge hc, hgs.1.2⟩, hgs.2⟩
    · exact List.forall_mem_cons.mpr ⟨hgs.1, ih hgs.2⟩

theorem entries_addClause {gs : List (Nat × Node α)} (hgs : Entries n gs) {c : Node α}
    (hc : OnTable i c) (h1 : 1 ≤ i) (hn : i ≤ n) : Entries n (addClause i c gs) := by
  unfold addClause
  split
  · exact entries_insertConstraint hgs hc h1 hn
  · exact List.forall_mem_append.mpr ⟨hgs, by simpa using ⟨.bundle (.clause hc), h1, hn⟩⟩

theorem evalCond_addClause {c : Node α} {gs : List (Nat × Node α)} {ρ : Env α} :
    (∀ g ∈ addClause i c gs, evalCond I D g.2 ρ = .true) ↔
      evalCond I D c ρ = .true ∧ ∀ g ∈ gs, evalCond I D g.2 ρ = .true := by
  unfold addClause
  split
  · exact evalCond_insertConstraint
  · rw [List.forall_mem_append, List.forall_mem_singleton]
    exact and_comm

/-- Clauses on tables of the query, one after the other. -/
theorem addConstraints_clauses {cs : List (Node α)}
    (hcs : ∀ c ∈ cs, ∃ i, 1 ≤ i ∧ i ≤ n ∧ OnTable i c) :
    ∀ {gs : List (Nat × Node α)}, Entries n gs →
      ∃ gs', addConstraints (gs.map Prod.snd) cs = some (gs'.map Prod.snd) ∧ Entries n gs' ∧
        ∀ I D ρ, (∀ g ∈ gs', evalCond I D g.2 ρ = .true) ↔
          (∀ c ∈ cs, evalCond I D c ρ = .true) ∧ ∀ g ∈ gs, evalCond I D g.2 ρ = .true := by
  induction cs with
  | nil => exact fun {gs} hgs => ⟨gs, rfl, hgs, by simp⟩
  | cons c cs ih =>
    intro gs hgs
    rw [List.forall_mem_cons] at hcs
    obtain ⟨⟨i, h1, hn, hc⟩, hcs⟩ := hcs
    obtain ⟨gs', hadd, hgs', heval⟩ := ih hcs (entries_addClause hgs hc h1 hn)
    refine ⟨gs', ?_, hgs', fun I D ρ => ?_⟩
    · rw [← hadd]
      simp [addConstraints, addConstrain_clause (fun g hg => (hgs g hg).1) hc]
    · rw [heval, evalCond_addClause, List.forall_mem_cons, and_assoc, and_left_comm]

/-! ### The WHERE -/

/-- The WHERE of a query of `n` tables: AND over comparisons, null tests, ORs of those, EXISTS and
NOT EXISTS.  What `my_modifier_self` takes out is on one table of the query. -/
inductive Parts (n : Nat) : Node α → Prop where
  | null : Parts n .null
  | clause {a} : Clause a → (takes a = true → ∃ i, 1 ≤ i ∧ i ≤ n ∧ OnTable i a) → Parts n a
  | exist {targetList rtable fromlist quals} :
    Parts n (.subLink .existsSublink .null (.query targetList rtable fromlist quals))
  | notExist {targetList rtable fromlist quals} :
    Parts n
      (.boolExpr .notExpr [.subLink .existsSublink .null (.query targetList rtable fromlist quals)])
  | and {args} : (∀ a ∈ args, Parts n a) → Parts n (.boolExpr .andExpr args)

/-- `my_modifier_self` outside every OR. -/
theorem Parts.modifies {a : Node α} (h : Parts n a) : Modifies none a := by
  induction h with
  | null => exact modifies_null
  | clause h _ => exact Self.modifies h.condition none
  | exist => exact Self.modifies .exist none
  | notExist => exact Self.modifies (.bool (by simpa using .exist)) none
  | and _ ih => exact modifies_and ih

theorem Parts.moved_onTable {a : Node α} (h : Parts n a) :
    ∀ c ∈ moved none a, ∃ i, 1 ≤ i ∧ i ≤ n ∧ OnTable i c := by
  induction h with
  | null | exist => simp [moved]
  | notExist => simp [moved, movedList]
  | clause h htable =>
    rw [h.moved_eq]
    split
    · next htakes => simpa using htable htakes
    · simp
  | and _ ih =>
    rw [moved_and]
    intro c hc
    obtain ⟨a, ha, hca⟩ := List.mem_flatMap.mp hc
    exact ih a ha c hca

/-- What stays and what is taken out are together true where the WHERE is. -/
theorem Parts.evalCond_strip {a : Node α} (h : Parts n a) (I : Interp α) (D : Database α)
    (ρ : Env α) :
    (evalCond I D (strip none a) ρ = .true ∧ ∀ c ∈ moved none a, evalCond I D c ρ = .true) ↔
      evalCond I D a ρ = .true := by
  induction h with
  | null | exist => simp [strip, moved]
  | notExist => simp [strip, stripList, moved, movedList]
  | clause h _ =>
    rw [h.strip_eq, h.moved_eq]
    split <;> simp [evalCond]
  | and _ ih =>
    rw [moved_and, strip_and, evalCond_and_eq_true, evalCond_and_eq_true, List.forall_mem_map]
    constructor
    · rintro ⟨hstays, hgoes⟩ a ha
      exact (ih a ha).mp ⟨hstays a ha, fun c hc => hgoes c (List.mem_flatMap.mpr ⟨a, ha, hc⟩)⟩
    · intro hall
      refine ⟨fun a ha => ((ih a ha).mpr (hall a ha)).1, fun c hc => ?_⟩
      obtain ⟨a, ha, hca⟩ := List.mem_flatMap.mp hc
      exact ((ih a ha).mpr (hall a ha)).2 c hca

/-! ### The table of an entry -/

theorem Bundle.about {t : Node α} (h : Bundle i t) : About i t := by
  induction h with
  | clause h => exact h.about
  | list hne _ ih =>
    obtain ⟨hexpr, hcolumn, htable, hnone⟩ := about_list hne ih
    exact ⟨hexpr, hcolumn, htable, hnone⟩

theorem Bundled.about {t : Node α} (h : Bundled i t) : About i t := by
  cases h with
  | bundle h => exact h.about
  | and hne h =>
    obtain ⟨hexpr, hcolumn, htable, hnone⟩ := about_list hne fun a ha => (h a ha).about
    exact ⟨hexpr, hcolumn, htable, hnone⟩

theorem About.varnoOf_eq {t : Node α} (h : About i t) : varnoOf t = i :=
  Self.varnoOf_eq h.hasColumn h.ofTable

/-- What `modif_rel` makes of the condition says on the first FROM entry what it says on the
`i`-th. -/
theorem About.evalCond_toFirst {t : Node α} (h : About i t) {ρ ρ' : Env α}
    (hparam : ρ'.param = ρ.param) {z : List (Nat × Row α)} {r : Row α}
    (hr : (z.lookup i).getD [] = r) :
    evalCond I D (mapColumns toFirst t) (ρ'.push [(1, r)]) = evalCond I D t (ρ.push z) := by
  refine evalCond_mapColumns toFirst t ⟨fun v hv => ?_, fun v hv => ?_, hparam⟩
  · obtain ⟨varno, varattno, varlevelsup⟩ := v
    obtain ⟨rfl, rfl⟩ : varno = i ∧ varlevelsup = 0 := by simpa [tableOf] using h.ofTable _ hv
    simp [toFirst, Env.column, Env.row, hr]
  · rw [h.noSubselect] at hv
    cases hv

/-! ### FROM -/

/-- A FROM entry with whole rows of the table `relid`: the table, or sub-selects around it. -/
structure Over (cat : Catalog) (relid : Oid) (rte : Node α) : Prop where
  shape : ∃ kind subquery, rte = .rangeTblEntry kind relid subquery
  closed : Closed rte
  width : ∀ I D, Conforms cat D → ∀ ρ : Env α, ∀ r ∈ evalRte I D rte ρ,
    r.length = cat.relnatts relid

theorem over_baseTable (cat : Catalog) (relid : Oid) : Over cat relid (baseTable relid : Node α) :=
  ⟨⟨_, _, rfl⟩, fun _ _ _ _ _ => rfl, fun _ _ hD _ => hD relid⟩

theorem forall₂_over_baseTables (cat : Catalog) (relids : List Oid) :
    List.Forall₂ (Over cat) relids (relids.map (baseTable (α := α))) := by
  rw [List.forall₂_map_right_iff]
  exact List.forall₂_same.mpr fun relid _ => over_baseTable cat relid

section Wrap

variable {relids : List Oid} {relid : Oid} {rte t : Node α} (h : Over cat relid rte)
  (ht : About i t) (h1 : 1 ≤ i) (hrelid : relids[i - 1]? = some relid)
include h ht h1 hrelid

/-- The new entry has the rows of the old one that meet the constraint. -/
theorem Over.evalRte_wrap (hD : Conforms cat D) {ρ ρ' : Env α} (hparam : ρ'.param = ρ.param) :
    evalRte I D (wrap (selectStar cat relids) t rte) ρ =
      (evalRte I D rte ρ).filter fun r => evalCond I D t (ρ'.push [(i, r)]) = .true := by
  have hrows : evalRte I D rte (ρ.push []) = evalRte I D rte ρ := h.closed I D rfl
  have hwidth := h.width I D hD ρ
  obtain ⟨kind, subquery, rfl⟩ := h.shape
  rw [Self.evalRte_wrap, hrows, ht.varnoOf_eq, outputs_selectStar h1 hrelid]
  have hcond : ∀ r, evalCond I D (mapColumns toFirst t) (ρ.push [(1, r)]) =
      evalCond I D t (ρ'.push [(i, r)]) := fun r =>
    ht.evalCond_toFirst hparam.symm (by simp)
  simp only [hcond, evalScalars_targetEntries]
  conv_rhs => rw [← List.map_id' (List.filter _ _)]
  refine List.map_congr_left fun r hr => ?_
  rw [← hwidth r (List.mem_of_mem_filter hr)]
  exact map_column_self r ρ

theorem Over.wrap : Over cat relid (wrap (selectStar cat relids) t rte) := by
  have hclosed := h.closed
  obtain ⟨kind, subquery, rfl⟩ := h.shape
  refine ⟨⟨_, _, rfl⟩, fun I D ρ ρ' hparam => ?_, fun I D _ ρ r hr => ?_⟩
  · have hcond : ∀ r, evalCond I D (mapColumns toFirst t) (ρ.push [(1, r)]) =
        evalCond I D (mapColumns toFirst t) (ρ'.push [(1, r)]) := fun r =>
      (ht.evalCond_toFirst (z := [(i, r)]) rfl (by simp)).trans
        (ht.evalCond_toFirst hparam.symm (by simp)).symm
    rw [Self.evalRte_wrap, Self.evalRte_wrap, ht.varnoOf_eq, outputs_selectStar h1 hrelid,
      hclosed I D (show (ρ.push []).param = (ρ'.push []).param from hparam)]
    simp [hcond, evalScalars_targetEntries, Env.column, Env.row]
  · rw [Self.evalRte_wrap, ht.varnoOf_eq, outputs_selectStar h1 hrelid] at hr
    obtain ⟨r', _, rfl⟩ := List.mem_map.mp hr
    simp [evalScalars_targetEntries]

end Wrap

/-- The constraints of a FROM entry, on one of its rows. -/
def meets (I : Interp α) (D : Database α) (ρ : Env α) (gs : List (Nat × Node α)) (i : Nat)
    (r : Row α) : Bool :=
  gs.all fun g => g.1 ≠ i || evalCond I D g.2 (ρ.push [(i, r)]) = .true

/-- `rewrite_self` wraps a FROM entry once for each of its constraints. -/
theorem rewriteSelf_clauses {relids : List Oid} {gs : List (Nat × Node α)}
    (hgs : Entries relids.length gs) : ∀ {rtable : List (Node α)},
      List.Forall₂ (Over cat) relids rtable →
      ∃ rtable', rewriteSelf (selectStar cat relids) (gs.map Prod.snd) rtable = some rtable' ∧
        List.Forall₂ (Over cat) relids rtable' ∧
        ∀ I D, Conforms cat D → ∀ {ρ ρ' : Env α}, ρ'.param = ρ.param → ∀ j, 1 ≤ j →
          (evalRtable I D rtable' ρ).getD (j - 1) [] =
            ((evalRtable I D rtable ρ).getD (j - 1) []).filter (meets I D ρ' gs j) := by
  induction gs with
  | nil =>
    intro rtable hover
    exact ⟨rtable, rfl, hover, fun I D _ _ _ _ j _ => (List.filter_true _).symm⟩
  | cons g gs ih =>
    obtain ⟨i, t⟩ := g
    intro rtable hover
    rw [Entries, List.forall_mem_cons] at hgs
    obtain ⟨⟨hbundled, h1, hn⟩, hgs⟩ := hgs
    have habout := hbundled.about
    obtain ⟨relid, hrelid⟩ : ∃ relid, relids[i - 1]? = some relid :=
      ⟨_, List.getElem?_eq_getElem (by omega)⟩
    obtain ⟨rte, hrte, hrteOver⟩ := forall₂_getElem? hover hrelid
    obtain ⟨rtable', hrun, hover', hrows⟩ :=
      ih hgs (forall₂_set hover hrelid (hrteOver.wrap habout h1 hrelid))
    refine ⟨rtable', ?_, hover', fun I D hD ρ ρ' hparam j h1j => ?_⟩
    · rw [List.map_cons, rewriteSelf_cons (areExpressions_selectStar relids) habout.expression,
        placeOf_eq habout.varnoOf_eq, hrte, Option.bind_some, hrun]
    · rw [hrows I D hD hparam j h1j]
      have hmeets : ∀ r, meets I D ρ' ((i, t) :: gs) j r =
          (meets I D ρ' gs j r && (i ≠ j || evalCond I D t (ρ'.push [(j, r)]) = .true)) := by
        intro r
        rw [Bool.and_comm]
        rfl
      rw [funext hmeets, ← List.filter_filter]
      congr 1
      rw [evalRtable_eq_map, evalRtable_eq_map, List.getD_eq_getElem?_getD, List.getElem?_map,
        List.getD_eq_getElem?_getD, List.getElem?_map]
      by_cases hij : i = j
      · subst hij
        have hlt : i - 1 < rtable.length := (List.getElem?_eq_some_iff.mp hrte).1
        rw [List.getElem?_set_self hlt, hrte]
        simp [hrteOver.evalRte_wrap habout h1 hrelid hD hparam]
      · rw [List.getElem?_set_ne (by omega)]
        simp [hij]

/-! ### The query -/

/-- All rows of a combination meet the entries of their tables exactly if the entries are true
there. -/
theorem all_meets_entries {gs : List (Nat × Node α)} (hgs : Entries n gs)
    {z : List (Nat × Row α)} {ρ : Env α} (hz : z.map Prod.fst = List.range' 1 n) :
    (z.all fun x => meets I D ρ gs x.1 x.2) = true ↔
      ∀ g ∈ gs, evalCond I D g.2 (ρ.push z) = .true := by
  have hnodup : (z.map Prod.fst).Nodup := hz ▸ List.nodup_range'
  have hsame : ∀ g ∈ gs, ∀ r, (g.1, r) ∈ z →
      evalCond I D g.2 (ρ.push [(g.1, r)]) = evalCond I D g.2 (ρ.push z) := by
    intro g hg r hr
    have habout := (hgs g hg).1.about
    rw [← habout.evalCond_toFirst (ρ := ρ) rfl (z := [(g.1, r)]) rfl,
      ← habout.evalCond_toFirst (ρ := ρ) rfl (z := z) rfl, lookup_of_mem hnodup hr]
    simp
  simp only [meets, List.all_eq_true]
  constructor
  · intro hall g hg
    obtain ⟨_, h1, hn⟩ := hgs g hg
    have hmem : g.1 ∈ z.map Prod.fst := hz ▸ List.mem_range'_1.mpr ⟨h1, by omega⟩
    obtain ⟨⟨i, r⟩, hr, rfl⟩ := List.mem_map.mp hmem
    have htrue := hall _ hr g hg
    simp only [ne_eq, decide_not, decide_true, Bool.not_true, Bool.false_or,
      decide_eq_true_eq] at htrue
    rw [← hsame g hg r hr]
    exact htrue
  · rintro htrue ⟨i, r⟩ hr g hg
    by_cases hi : g.1 = i
    · subst hi
      simpa [hsame g hg r hr] using htrue g hg
    · simp [hi]

/-- The pass on one query level, with whatever FROM entries earlier passes have left. -/
theorem optimizeSelfConstraint_parts {relids : List Oid} {rtable : List (Node α)} {quals : Node α}
    (hover : List.Forall₂ (Over cat) relids rtable) (h : Parts relids.length quals) :
    ∃ rtable', optimizeSelfConstraint
        (.query (selectStar cat relids) rtable (List.range' 1 relids.length) quals) =
          some (.query (selectStar cat relids) rtable' (List.range' 1 relids.length)
            (strip none quals)) ∧
      List.Forall₂ (Over cat) relids rtable' ∧
      ∀ I D, Conforms cat D → ∀ ρ, evalQuery I D (.query (selectStar cat relids) rtable'
          (List.range' 1 relids.length) (strip none quals)) ρ =
        evalQuery I D
          (.query (selectStar cat relids) rtable (List.range' 1 relids.length) quals) ρ := by
  have hnone : Entries relids.length ([] : List (Nat × Node α)) := by simp [Entries]
  obtain ⟨gs, hadd, hgs, heval⟩ := addConstraints_clauses h.moved_onTable hnone
  obtain ⟨context, hmodify, _, hrel⟩ := h.modifies makeContextOptimizerSelf _
    ⟨rfl, rfl, rfl, by simp, rfl⟩ hadd
  obtain ⟨rtable', hrewrite, hover', hrows⟩ := rewriteSelf_clauses hgs hover
  refine ⟨rtable', ?_, hover', fun I D hD ρ => ?_⟩
  · simp [optimizeSelfConstraint, hmodify, hrel, hrewrite]
  · rw [evalQuery, evalQuery, combinations_filter fun i hi =>
      hrows I D hD (show ρ.param = (ρ.push []).param from rfl) i (List.mem_range'_1.mp hi).1,
      List.filter_filter]
    congr 1
    refine List.filter_congr fun z hz => ?_
    rw [Bool.eq_iff_iff, Bool.and_eq_true, decide_eq_true_iff, decide_eq_true_iff,
      all_meets_entries hgs (map_fst_combination hz), heval, ← h.evalCond_strip]
    simp

end Infed.Self
