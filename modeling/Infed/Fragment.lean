import Infed.CertainAnswer

/-! The queries that the passes are made for: comma-joined base tables, with WHERE conditions built
with AND, OR, NOT, and EXISTS from atoms.  `Cond` says which conditions these are, for a given kind
of atom; the tables in scope are their OIDs, query by query from the innermost outwards. -/

namespace Infed

variable {α : Type}

/-- The tables of each query around a condition, innermost query first. -/
abbrev Scopes := List (List Oid)

def baseTable (relid : Oid) : Node α := .rangeTblEntry .rteRelation relid .null

/-- `SELECT targetList FROM relids WHERE quals`. -/
def selectFrom (targetList : List (Node α)) (relids : List Oid) (quals : Node α) : Node α :=
  .query targetList (relids.map baseTable) (List.range' 1 relids.length) quals

def existsFrom (targetList : List (Node α)) (relids : List Oid) (quals : Node α) : Node α :=
  .subLink .existsSublink .null (selectFrom targetList relids quals)

/-- A comparison of a column with a constant. -/
def compared (opno : Oid) (v : Var) (x : α) : Node α := .opExpr opno [.var v, .const (some x)]

/-- The relation and attribute that a column reference denotes. -/
def columnOf (os : Scopes) (v : Var) : Option (Oid × Nat) := do
  let relids ← os[v.varlevelsup]?
  let relid ← entryAt relids v.varno
  some (relid, v.varattno)

/-- The column reference denotes an attribute of a table in scope. -/
def Var.InScope (cat : Catalog) (os : Scopes) (v : Var) : Prop :=
  ∃ relid, columnOf os v = some (relid, v.varattno) ∧ 1 ≤ v.varattno ∧
    v.varattno ≤ cat.relnatts relid

theorem Var.inScope_of_columnOf {cat : Catalog} {os : Scopes} {v : Var}
    (hcol : (columnOf os v).isSome = true) (h1 : 1 ≤ v.varattno)
    (hle : ∀ relid, v.varattno ≤ cat.relnatts relid) : v.InScope cat os := by
  obtain ⟨⟨relid, attno⟩, hcol⟩ := Option.isSome_iff_exists.mp hcol
  have hattno : attno = v.varattno := by
    simp only [columnOf, Option.bind_eq_bind, Option.bind_eq_some_iff, Option.some.injEq,
      Prod.mk.injEq] at hcol
    obtain ⟨_, _, _, _, _, h⟩ := hcol
    exact h.symm
  exact ⟨relid, hattno ▸ hcol, h1, hle relid⟩

/-- The conditions over atoms of the kind `leaf`.  When `freeNot` does not hold, NOT stands only in
front of EXISTS. -/
inductive Cond (leaf : Scopes → Node α → Prop) (freeNot : Prop) : Scopes → Node α → Prop where
  | leaf {os a} : leaf os a → Cond leaf freeNot os a
  | null {os} : Cond leaf freeNot os .null
  | and {os args} : args ≠ [] → (∀ a ∈ args, Cond leaf freeNot os a) →
    Cond leaf freeNot os (.boolExpr .andExpr args)
  | or {os args} : args ≠ [] → (∀ a ∈ args, Cond leaf freeNot os a) →
    Cond leaf freeNot os (.boolExpr .orExpr args)
  | not {os a} : freeNot ∨ a.isExists → Cond leaf freeNot os a →
    Cond leaf freeNot os (.boolExpr .notExpr [a])
  | exist {os targetList relids quals} : Cond leaf freeNot (relids :: os) quals →
    Cond leaf freeNot os (existsFrom targetList relids quals)

theorem Cond.mono {leaf leaf' : Scopes → Node α → Prop} {freeNot freeNot' : Prop}
    (hleaf : ∀ os a, leaf os a → leaf' os a) (hnot : freeNot → freeNot') {os : Scopes} {a : Node α}
    (h : Cond leaf freeNot os a) : Cond leaf' freeNot' os a := by
  induction h with
  | leaf h => exact .leaf (hleaf _ _ h)
  | null => exact .null
  | and hne _ ih => exact .and hne ih
  | or hne _ ih => exact .or hne ih
  | not h _ ih => exact .not (h.imp_left hnot) ih
  | exist _ ih => exact .exist ih

/-! ### Atoms -/

/-- A column of a table in scope, or a constant. -/
inductive Operand (cat : Catalog) (os : Scopes) : Node α → Prop where
  | column {v} : v.InScope cat os → Operand cat os (.var v)
  | constant {c} : Operand cat os (.const c)

/-- A comparison of columns and constants with any operator, or a null test. -/
inductive Atom (cat : Catalog) (os : Scopes) : Node α → Prop where
  | comparison {opno args} : (∀ a ∈ args, Operand cat os a) → Atom cat os (.opExpr opno args)
  | nullTest {test arg} : Operand cat os arg → Atom cat os (.nullTest test arg)

/-- A comparison of columns and constants with one of the operators `ops`, at least one of them a
column. -/
inductive Comparison (cat : Catalog) (ops : List Oid) (os : Scopes) : Node α → Prop where
  | mk {opno args} : opno ∈ ops → (∀ a ∈ args, Operand cat os a) → (∃ v, .var v ∈ args) →
    Comparison cat ops os (.opExpr opno args)

theorem Comparison.atom {cat : Catalog} {ops : List Oid} {os : Scopes} {a : Node α}
    (h : Comparison cat ops os a) : Atom cat os a := by
  obtain ⟨_, hargs, _⟩ := h
  exact .comparison hargs

theorem Comparison.compared {cat : Catalog} {ops : List Oid} {os : Scopes} {opno : Oid} {v : Var}
    (hop : opno ∈ ops) (hv : v.InScope cat os) (x : α) :
    Comparison cat ops os (compared opno v x) :=
  .mk hop (List.forall_mem_cons.mpr ⟨.column hv, List.forall_mem_singleton.mpr .constant⟩)
    ⟨v, List.mem_cons_self⟩

theorem Atom.compared {cat : Catalog} {os : Scopes} {v : Var} (hv : v.InScope cat os) (opno : Oid)
    (x : α) : Atom cat os (compared opno v x) :=
  (Comparison.compared List.mem_cons_self hv x : Comparison cat [opno] os _).atom

/-- An operand of a comparison, or a parameter, which in the test expression of a sub-link stands
for a column of the sub-select. -/
inductive TestOperand (cat : Catalog) (os : Scopes) : Node α → Prop where
  | operand {a} : Operand cat os a → TestOperand cat os a
  | param {i} : TestOperand cat os (.param i)

/-- A comparison of columns, constants and parameters, at least one of them a column. -/
inductive Test (cat : Catalog) (ops : List Oid) (os : Scopes) : Node α → Prop where
  | mk {opno args} : opno ∈ ops → (∀ a ∈ args, TestOperand cat os a) → (∃ v, .var v ∈ args) →
    Test cat ops os (.opExpr opno args)

theorem Comparison.test {cat : Catalog} {ops : List Oid} {os : Scopes} {a : Node α}
    (h : Comparison cat ops os a) : Test cat ops os a := by
  obtain ⟨hop, hargs, hcolumn⟩ := h
  exact .mk hop (fun a ha => .operand (hargs a ha)) hcolumn

/-- A catalog in which every table has `n` columns, none of them declared NOT NULL. -/
def Catalog.nullable (n : Nat) : Catalog := ⟨fun _ => n, fun _ _ => false⟩

/-! ### Numbering -/

mutual

/-- The number of AND and OR nodes, in sub-selects too. -/
def boolCount : Node α → Nat
  | .boolExpr .notExpr args => boolCountList args
  | .boolExpr _ args => boolCountList args + 1
  | .subLink _ _ subselect => boolCount subselect
  | .query _ _ _ quals => boolCount quals
  | _ => 0

def boolCountList : List (Node α) → Nat
  | [] => 0
  | node :: nodes => boolCount node + boolCountList nodes

end

mutual

/-- The number of FROM entries of the sub-selects. -/
def rteCount : Node α → Nat
  | .boolExpr _ args => rteCountList args
  | .subLink _ _ subselect => rteCount subselect
  | .query _ rtable _ quals => rtable.length + rteCount quals
  | _ => 0

def rteCountList : List (Node α) → Nat
  | [] => 0
  | node :: nodes => rteCount node + rteCountList nodes

end

/-- The scope inside a query whose FROM entries are numbered from `rte` on. -/
def Scope.enter (cat : Catalog) (scope : Scope) (rte : Nat) (relids : List Oid) : Scope :=
  .level scope (relids.mapIdx fun i relid => relationVars cat (rte + i) relid)

def relidOf : Node α → Oid
  | .rangeTblEntry _ relid _ => relid
  | _ => 0

mutual

/-- The scopes of the queries in a tree, in the order of the traversals, when its first FROM entry
has number `rte`. -/
def queryScopes (cat : Catalog) : Node α → Scope → Nat → List Scope
  | .boolExpr _ args, scope, rte => queryScopesList cat args scope rte
  | .subLink _ _ subselect, scope, rte => queryScopes cat subselect scope rte
  | .query _ rtable _ quals, scope, rte =>
    let inner := scope.enter cat rte (rtable.map relidOf)
    inner :: queryScopes cat quals inner (rte + rtable.length)
  | _, _, _ => []

def queryScopesList (cat : Catalog) : List (Node α) → Scope → Nat → List Scope
  | [], _, _ => []
  | node :: nodes, scope, rte =>
    queryScopes cat node scope rte ++ queryScopesList cat nodes scope (rte + rteCount node)

end

@[simp] theorem map_relidOf_baseTable (relids : List Oid) :
    (relids.map (baseTable (α := α))).map relidOf = relids := by
  simp [Function.comp_def, baseTable, relidOf]

theorem boolCount_boolExpr {boolop : BoolExprType} (hop : boolop ≠ .notExpr)
    (args : List (Node α)) : boolCount (.boolExpr boolop args) = boolCountList args + 1 := by
  cases boolop <;> first | rfl | exact absurd rfl hop

theorem boolCount_not (a : Node α) : boolCount (.boolExpr .notExpr [a]) = boolCount a := by
  simp [boolCount, boolCountList]

theorem boolCount_selectFrom (targetList : List (Node α)) (relids : List Oid) (quals : Node α) :
    boolCount (selectFrom targetList relids quals) = boolCount quals := by
  rw [selectFrom, boolCount]

theorem boolCount_existsFrom (targetList : List (Node α)) (relids : List Oid) (quals : Node α) :
    boolCount (existsFrom targetList relids quals) = boolCount quals := by
  rw [existsFrom, boolCount, boolCount_selectFrom]

theorem queryScopes_boolExpr (cat : Catalog) (boolop : BoolExprType) (args : List (Node α))
    (scope : Scope) (rte : Nat) :
    queryScopes cat (.boolExpr boolop args) scope rte = queryScopesList cat args scope rte := by
  simp [queryScopes]

theorem queryScopes_not (cat : Catalog) (a : Node α) (scope : Scope) (rte : Nat) :
    queryScopes cat (.boolExpr .notExpr [a]) scope rte = queryScopes cat a scope rte := by
  simp [queryScopes, queryScopesList]

theorem queryScopes_selectFrom (cat : Catalog) (targetList : List (Node α)) (relids : List Oid)
    (quals : Node α) (scope : Scope) (rte : Nat) :
    queryScopes cat (selectFrom targetList relids quals) scope rte =
      scope.enter cat rte relids ::
        queryScopes cat quals (scope.enter cat rte relids) (rte + relids.length) := by
  rw [selectFrom, queryScopes, map_relidOf_baseTable, List.length_map]

/-- A sub-link has the queries of its sub-select. -/
theorem queryScopes_subselect (cat : Catalog) (targetList : List (Node α)) (relids : List Oid)
    (quals : Node α) (scope : Scope) (rte : Nat) :
    queryScopes cat (existsFrom targetList relids quals) scope rte =
      queryScopes cat (selectFrom targetList relids quals) scope rte := by
  rw [existsFrom, queryScopes]

/-! ### Resolving columns -/

/-- The scope holds the true variables of the tables `os`. -/
def Scope.Resolves (cat : Catalog) : Scope → Scopes → Prop
  | .root, [] => True
  | .level parent relations, relids :: os =>
    List.Forall₂ (fun vars relid => ∃ rte, vars = relationVars cat rte relid) relations relids ∧
      parent.Resolves cat os
  | _, _ => False

theorem Scope.resolves_root (cat : Catalog) : Scope.root.Resolves cat [] := trivial

theorem Scope.Resolves.enter {cat : Catalog} {scope : Scope} {os : Scopes}
    (h : scope.Resolves cat os) (rte : Nat) (relids : List Oid) :
    (scope.enter cat rte relids).Resolves cat (relids :: os) := by
  refine ⟨?_, h⟩
  rw [List.forall₂_iff_get]
  refine ⟨by simp, fun i h1 h2 => ⟨rte + i, by simp⟩⟩

theorem Scope.Resolves.up {cat : Catalog} : ∀ {n : Nat} {scope : Scope} {os : Scopes}
    {relids : List Oid}, scope.Resolves cat os → os[n]? = some relids →
    ∃ inner, scope.up n = some inner ∧
      List.Forall₂ (fun vars relid => ∃ rte, vars = relationVars cat rte relid)
        inner.relations relids
  | 0, .level _ _, _ :: _, _, h, hn => by
    cases hn
    exact ⟨_, rfl, h.1⟩
  | n + 1, .level _ _, _ :: os, _, h, hn => by
    obtain ⟨inner, hup, hrel⟩ := Scope.Resolves.up h.2 (by simpa using hn)
    exact ⟨inner, by simpa [Scope.up, Scope.parent] using hup, hrel⟩
  | _, .root, [], _, _, hn => by simp at hn
  | _, .level _ _, [], _, h, _ => h.elim
  | _, .root, _ :: _, _, h, _ => h.elim

/-- A column in scope has a true variable, of the relation and attribute that it denotes. -/
theorem getTrueVar_of_inScope {cat : Catalog} {scope : Scope} {os : Scopes} {v : Var}
    (h : scope.Resolves cat os) (hv : v.InScope cat os) :
    ∃ t, getTrueVar scope v = some t ∧ columnOf os v = some t.column := by
  obtain ⟨relid, hcol, h1, hle⟩ := hv
  simp only [columnOf, Option.bind_eq_bind, Option.bind_eq_some_iff, Option.some.injEq,
    Prod.mk.injEq, and_true] at hcol
  obtain ⟨relids, hrelids, r, hr, rfl⟩ := hcol
  obtain ⟨inner, hup, hrel⟩ := h.up hrelids
  obtain ⟨vars, hvars, rte, rfl⟩ : ∃ vars, entryAt inner.relations v.varno = some vars ∧
      ∃ rte, vars = relationVars cat rte r := by
    obtain ⟨hpos, _, hr⟩ := entryAt_eq_some hr
    rw [entryAt_of_pos _ hpos]
    obtain ⟨hlt, hget⟩ := List.getElem?_eq_some_iff.mp hr
    rw [List.forall₂_iff_get] at hrel
    have hlt' : v.varno - 1 < inner.relations.length := hrel.1 ▸ hlt
    have := hrel.2 _ hlt' hlt
    simp only [List.get_eq_getElem, hget] at this
    exact ⟨_, List.getElem?_eq_getElem hlt', this⟩
  refine ⟨⟨rte, r, v.varattno⟩, ?_, by simp [columnOf, hrelids, hr, TrueVar.column]⟩
  have hnth : (relationVars cat rte r)[v.varattno - 1]? = some ⟨rte, r, v.varattno⟩ := by
    simp only [relationVars, List.getElem?_map, Option.map_eq_some_iff]
    exact ⟨v.varattno - 1, List.getElem?_range (by omega), by
      simp only [TrueVar.mk.injEq, true_and]
      omega⟩
  simp [getTrueVar, hup, hvars, hnth]

end Infed
