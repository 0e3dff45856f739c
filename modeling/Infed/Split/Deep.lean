import Infed.Split.Negation

/-! `mutator_split_deep`: every NOT over a sub-link, and inside its sub-select every one again, is
split.  What is built in its place are NOT EXISTS, whatever the kind of the sub-link was and
whatever its test expression compares. -/

namespace Infed.Split

variable {α : Type}

mutual

def mutatorSplitDeep (fuel : Nat) : Node α → Option (Node α)
  | .boolExpr .notExpr (.subLink _ _ (.query targetList rtable fromlist quals) :: _) => do
    let quals ← mutatorSplitDeep fuel quals
    optimizeSplit fuel (.query targetList rtable fromlist quals)
  | .boolExpr .notExpr (.subLink _ _ _ :: _) => none
  | .boolExpr boolop args => do
    let args ← mutatorSplitDeepList fuel args
    some (.boolExpr boolop args)
  | .opExpr opno args => do
    let args ← mutatorSplitDeepList fuel args
    some (.opExpr opno args)
  | .nullTest test arg => do
    let arg ← mutatorSplitDeep fuel arg
    some (.nullTest test arg)
  | .subLink kind testexpr subselect => do
    let testexpr ← mutatorSplitDeep fuel testexpr
    let subselect ← mutatorSplitDeep fuel subselect
    some (.subLink kind testexpr subselect)
  | .targetEntry expr resno => do
    let expr ← mutatorSplitDeep fuel expr
    some (.targetEntry expr resno)
  | .list elems => do
    let elems ← mutatorSplitDeepList fuel elems
    some (.list elems)
  | .rangeTblEntry _ _ _ => none
  -- `expression_tree_mutator` does nothing with a sub-select
  | node => some node

def mutatorSplitDeepList (fuel : Nat) : List (Node α) → Option (List (Node α))
  | [] => some []
  | node :: nodes => do
    let node ← mutatorSplitDeep fuel node
    let nodes ← mutatorSplitDeepList fuel nodes
    some (node :: nodes)

end

def optimizeSplitDeep (fuel : Nat) : Node α → Option (Node α)
  | .query targetList rtable fromlist quals => do
    let quals ← mutatorSplitDeep fuel quals
    some (.query targetList rtable fromlist quals)
  | _ => none

/-! ### Conditions -/

/-- Arithmetic over columns, constants, parameters and scalar sub-selects. -/
inductive Scalar : Node α → Prop where
  | column {v} : Scalar (.var v)
  | constant {c} : Scalar (.const c)
  | param {i} : Scalar (.param i)
  | op {opno args} : (∀ a ∈ args, Scalar a) → Scalar (.opExpr opno args)
  | subselect {targetList rtable fromlist quals} :
    Scalar (.subLink .exprSublink .null (.query targetList rtable fromlist quals))

def isSubLink : Node α → Bool
  | .subLink _ _ _ => true
  | _ => false

/-- AND, OR and NOT over comparisons, null tests and sub-links.  A test expression that stays has no
OR. -/
inductive Condition : Node α → Prop where
  | null : Condition .null
  | comparison {opno args} : (∀ a ∈ args, Scalar a) → Condition (.opExpr opno args)
  | nullTest {test arg} : Scalar arg → Condition (.nullTest test arg)
  | subLink {kind testexpr targetList rtable fromlist quals} : orFree testexpr = true →
    Condition testexpr →
    Condition (.subLink kind testexpr (.query targetList rtable fromlist quals))
  | and {args} : (∀ a ∈ args, Condition a) → Condition (.boolExpr .andExpr args)
  | or {args} : args ≠ [] → (∀ a ∈ args, Condition a) → Condition (.boolExpr .orExpr args)
  | not {a} : isSubLink a = false → Condition a → Condition (.boolExpr .notExpr [a])
  | notSubLink {kind testexpr targetList rtable fromlist quals} : kind ≠ .exprSublink →
    Condition quals →
    Condition (.boolExpr .notExpr
      [.subLink kind testexpr (.query targetList rtable fromlist quals)])

/-- A sub-link under NOT. -/
structure Negated (α : Type) where
  kind : SubLinkType
  testexpr : Node α
  subselect : Node α

namespace Negated

def subLink (s : Negated α) : Node α := .subLink s.kind s.testexpr s.subselect

def node (s : Negated α) : Node α := .boolExpr .notExpr [s.subLink]

end Negated

mutual

/-- The sub-links under NOT that the pass rewrites, each before those in its sub-select. -/
def rewritten : Node α → List (Negated α)
  | .boolExpr .notExpr (.subLink kind testexpr (.query targetList rtable fromlist quals) :: _) =>
    ⟨kind, testexpr, .query targetList rtable fromlist quals⟩ :: rewritten quals
  | .boolExpr _ args => rewrittenList args
  | .opExpr _ args => rewrittenList args
  | .nullTest _ arg => rewritten arg
  | .subLink _ testexpr _ => rewritten testexpr
  | .targetEntry expr _ => rewritten expr
  | .list elems => rewrittenList elems
  | _ => []

def rewrittenList : List (Node α) → List (Negated α)
  | [] => []
  | node :: nodes => rewritten node ++ rewrittenList nodes

end

theorem mem_rewrittenList {nodes : List (Node α)} {s : Negated α} :
    s ∈ rewrittenList nodes ↔ ∃ a ∈ nodes, s ∈ rewritten a := by
  induction nodes with
  | nil => simp [rewrittenList]
  | cons a nodes ih => simp [rewrittenList, ih]

theorem rewritten_not {a : Node α} (ha : isSubLink a = false) :
    rewritten (.boolExpr .notExpr [a]) = rewritten a := by
  have hlist : rewrittenList [a] = rewritten a := by simp [rewrittenList]
  cases a with
  | subLink => cases ha
  | _ => exact hlist

theorem mutatorSplitDeep_not {a : Node α} (ha : isSubLink a = false) (fuel : Nat) :
    mutatorSplitDeep fuel (.boolExpr .notExpr [a]) =
      (mutatorSplitDeepList fuel [a]).map (.boolExpr .notExpr) := by
  cases a with
  | subLink => cases ha
  | _ =>
    rw [mutatorSplitDeep]
    · cases mutatorSplitDeepList fuel [_] <;> rfl
    all_goals simp

/-- The pass on a list of conditions, one by one. -/
theorem mutatorSplitDeepList_eq_some {fuel : Nat} {nodes outs : List (Node α)} :
    mutatorSplitDeepList fuel nodes = some outs ↔
      List.Forall₂ (fun a a' => mutatorSplitDeep fuel a = some a') nodes outs := by
  induction nodes generalizing outs with
  | nil => simp [mutatorSplitDeepList, eq_comm]
  | cons a nodes ih =>
    simp only [mutatorSplitDeepList, Option.bind_eq_bind, Option.bind_eq_some_iff,
      Option.some.injEq, List.forall₂_cons_left_iff]
    constructor
    · rintro ⟨a', ha, outs', houts, rfl⟩
      exact ⟨a', outs', ha, ih.mp houts, rfl⟩
    · rintro ⟨a', outs', ha, houts, rfl⟩
      exact ⟨a', ha, outs', ih.mpr houts, rfl⟩

theorem mutatorSplitDeepList_copy {fuel : Nat} {nodes : List (Node α)}
    (h : ∀ a ∈ nodes, mutatorSplitDeep fuel a = some a) :
    mutatorSplitDeepList fuel nodes = some nodes :=
  mutatorSplitDeepList_eq_some.mpr (List.forall₂_same.mpr h)

theorem Scalar.copy {a : Node α} (h : Scalar a) (fuel : Nat) :
    mutatorSplitDeep fuel a = some a := by
  induction h with
  | column | constant | param | subselect => rfl
  | op _ ih => simp [mutatorSplitDeep, mutatorSplitDeepList_copy ih]

theorem Scalar.rewritten_eq_nil {a : Node α} (h : Scalar a) : rewritten a = [] := by
  induction h with
  | column | constant | param | subselect => rfl
  | op _ ih =>
    rw [rewritten, List.eq_nil_iff_forall_not_mem]
    intro s hs
    obtain ⟨a, ha, hs⟩ := mem_rewrittenList.mp hs
    rw [ih a ha] at hs
    cases hs

theorem Scalar.orFree {a : Node α} (h : Scalar a) : orFree a = true := by
  induction h with
  | column | constant | param | subselect => rfl
  | op _ ih =>
    rw [Split.orFree, orFreeList_iff]
    exact ih

theorem mutatorSplitDeep_boolExpr {boolop : BoolExprType} (hop : boolop ≠ .notExpr) (fuel : Nat)
    (args : List (Node α)) : mutatorSplitDeep fuel (.boolExpr boolop args) =
      (mutatorSplitDeepList fuel args).map (.boolExpr boolop) := by
  cases boolop with
  | notExpr => exact absurd rfl hop
  | andExpr | orExpr =>
    rw [mutatorSplitDeep]
    · cases mutatorSplitDeepList fuel args <;> rfl
    all_goals simp

/-- With enough fuel the pass returns `out`. -/
def Returns (a out : Node α) : Prop :=
  ∃ enough, ∀ fuel ≥ enough, mutatorSplitDeep fuel a = some out

theorem Returns.unique {a out out' : Node α} (h : Returns a out) (h' : Returns a out') :
    out = out' := by
  obtain ⟨enough, hrun⟩ := h
  obtain ⟨enough', hrun'⟩ := h'
  exact Option.some.inj ((hrun (max enough enough') (by omega)).symm.trans
    (hrun' (max enough enough') (by omega)))

theorem mutatorSplitDeepList_returns {args outs : List (Node α)}
    (h : List.Forall₂ Returns args outs) :
    ∃ enough, ∀ fuel ≥ enough, mutatorSplitDeepList fuel args = some outs := by
  induction h with
  | nil => exact ⟨0, fun _ _ => rfl⟩
  | cons hhead _ ih =>
    obtain ⟨enough, hrun⟩ := hhead
    obtain ⟨enoughs, hruns⟩ := ih
    refine ⟨max enough enoughs, fun fuel hfuel => ?_⟩
    simp [mutatorSplitDeepList, hrun fuel (by omega), hruns fuel (by omega)]

/-! ### Splitting once -/

/-- What `optimize_split` builds from the NOT EXISTS. -/
def conjoined : List (Node α) → Node α
  | [a] => a
  | nexits => .boolExpr .andExpr nexits

theorem evalCond_conjoined (I : Interp α) (D : Database α) (nexits : List (Node α)) (ρ : Env α) :
    evalCond I D (conjoined nexits) ρ = evalCond I D (.boolExpr .andExpr nexits) ρ := by
  unfold conjoined
  split
  · rw [evalCond, evalConds, evalConds, Kleene.conj_singleton]
  · rfl

theorem optimizeSplit_eq {fuel : Nat} {quals : Node α} {result : List (Node α)}
    (h : trueSplit fuel quals = some result) (hne : result ≠ []) (targetList rtable : List (Node α))
    (fromlist : List Nat) :
    optimizeSplit fuel (.query targetList rtable fromlist quals) =
      some (conjoined (result.map fun t => notExists (.query targetList rtable fromlist t))) := by
  obtain ⟨r, rest, rfl⟩ := List.exists_cons_of_ne_nil hne
  cases rest with
  | nil => simp [optimizeSplit, h, listNth, conjoined]
  | cons r' rest => simp [optimizeSplit, h, conjoined]

section

variable {targetList rtable : List (Node α)} {fromlist : List Nat} {result : List (Node α)}

theorem tree_notExists (t : Node α) : Tree (notExists (.query targetList rtable fromlist t)) :=
  .not (List.forall_mem_singleton.mpr (.subLink rfl rfl))

/-- What `optimize_split` returns has no OR. -/
theorem orFree_conjoined :
    orFree (conjoined (result.map fun t => notExists (.query targetList rtable fromlist t))) =
        true ∧
      Tree (conjoined (result.map fun t => notExists (.query targetList rtable fromlist t))) := by
  unfold conjoined
  split
  · next a heq =>
    obtain ⟨t, _, rfl⟩ := List.mem_map.mp (heq ▸ List.mem_singleton_self a)
    exact ⟨rfl, tree_notExists t⟩
  · refine ⟨?_, .and (List.forall_mem_map.mpr fun t _ => tree_notExists t)⟩
    rw [orFree, orFreeList_iff]
    · exact List.forall_mem_map.mpr fun _ _ => rfl
    · simp

theorem evalCond_conjoined_eq_true {I : Interp α} {D : Database α} {ρ : Env α} :
    evalCond I D (conjoined (result.map fun t =>
        notExists (.query targetList rtable fromlist t))) ρ = .true ↔
      ¬∃ z ∈ combinations (evalRtable I D rtable (ρ.push [])) fromlist,
        ∃ r ∈ result, evalCond I D r (ρ.push z) = .true := by
  rw [evalCond_conjoined]
  simp only [evalCond_and_eq_true, List.forall_mem_map, evalCond_notExists_eq_true, not_exists,
    not_and]
  exact ⟨fun h z hz r hr => h r hr z hz, fun h r hr z hz => h z hz r hr⟩

theorem evalCond_conjoined_ne_unknown {I : Interp α} {D : Database α} {ρ : Env α} :
    evalCond I D (conjoined (result.map fun t =>
      notExists (.query targetList rtable fromlist t))) ρ ≠ .unknown := by
  rw [evalCond_conjoined, evalCond, evalConds_eq_map]
  refine Kleene.conj_ne_unknown fun t ht => ?_
  simp only [List.map_map, List.mem_map] at ht
  obtain ⟨r, _, rfl⟩ := ht
  exact evalCond_notExists_ne_unknown _

end

theorem Tree.misled_of_orFree {a : Node α} (h : Tree a) (hfree : Split.orFree a = true)
    (I : Interp α) (D : Database α) (ρ : Env α) (p : Bool) : misled I D ρ p a = false := by
  refine misled_of_evenOrs I D ρ p a (h.evenOrs_of_picks ?_)
  by_contra hne
  have hsplit := h.haveToSplit_iff.mpr hne
  rw [haveToSplit_of_orFree a hfree] at hsplit
  cases hsplit

theorem isOr_of_orFree {a : Node α} (hfree : orFree a = true) : isOr a = false := by
  unfold isOr
  split
  · cases hfree
  · rfl

/-! ### Sub-links under NOT -/

namespace Negated

section

variable (I : Interp α) (D : Database α) (s : Negated α) (ρ : Env α)

/-- Some combination of FROM rows satisfies the WHERE, or misleads it. -/
def Found : Prop :=
  ∃ z ∈ combinations (evalRtable I D s.subselect.rtable (ρ.push [])) s.subselect.fromlist,
    Reaches I D (ρ.push z) true s.subselect.quals

/-- The sub-link asks only for what NOT EXISTS with one argument for each OR finds. -/
def Asks : Prop :=
  match s.kind with
  | .existsSublink => s.Found I D ρ → evalQuery I D s.subselect ρ ≠ []
  | .anySublink => s.Found I D ρ →
    ∃ r ∈ evalQuery I D s.subselect ρ, evalCond I D s.testexpr { ρ with param := r } = .true
  | .allSublink => s.Found I D ρ ∧
    ∀ r ∈ evalQuery I D s.subselect ρ, evalCond I D s.testexpr { ρ with param := r } = .true
  | .exprSublink => False

/-- What has to hold of a sub-link under NOT: the WHERE has no OR at its root, and the sub-link asks
only for what is found. -/
structure SplitsRight : Prop where
  root : isOr s.subselect.quals = false
  asks : ∀ ρ, s.Asks I D ρ

end

variable {I : Interp α} {D : Database α} {ρ : Env α} {kind : SubLinkType} {testexpr quals : Node α}
  {targetList rtable : List (Node α)} {fromlist : List Nat}

/-- A row that the sub-select returns is found. -/
theorem evalQuery_of_not_found
    (h : ¬(⟨kind, testexpr, .query targetList rtable fromlist quals⟩ : Negated α).Found I D ρ) :
    evalQuery I D (.query targetList rtable fromlist quals) ρ = [] := by
  refine List.eq_nil_iff_forall_not_mem.mpr fun row hrow => h ?_
  rw [evalQuery, List.mem_map] at hrow
  obtain ⟨z, hz, _⟩ := hrow
  rw [List.mem_filter] at hz
  exact ⟨z, hz.1, .inl (of_decide_eq_true hz.2)⟩

/-- The sub-link is true where something is found, and false elsewhere. -/
theorem asks_iff (hkind : kind ≠ .exprSublink) :
    (⟨kind, testexpr, .query targetList rtable fromlist quals⟩ : Negated α).Asks I D ρ ↔
      ((⟨kind, testexpr, .query targetList rtable fromlist quals⟩ : Negated α).Found I D ρ →
        evalCond I D (.subLink kind testexpr (.query targetList rtable fromlist quals)) ρ = .true) ∧
      (¬(⟨kind, testexpr, .query targetList rtable fromlist quals⟩ : Negated α).Found I D ρ →
        evalCond I D (.subLink kind testexpr (.query targetList rtable fromlist quals)) ρ =
          .false) := by
  cases kind with
  | existsSublink =>
    simp only [Asks, evalCond, Kleene.ofBool_eq_true, Bool.not_eq_true', List.isEmpty_eq_false_iff]
    refine ⟨fun h => ⟨h, fun hfound => ?_⟩, fun h => h.1⟩
    rw [evalQuery_of_not_found hfound]
    rfl
  | anySublink =>
    simp only [Asks, evalCond, Kleene.disj_eq_true_iff, List.mem_map, exists_exists_and_eq_and]
    refine ⟨fun h => ⟨h, fun hfound => ?_⟩, fun h => h.1⟩
    rw [evalQuery_of_not_found hfound]
    rfl
  | allSublink =>
    simp only [Asks, evalCond, Kleene.conj_eq_true_iff, List.forall_mem_map]
    constructor
    · exact fun h => ⟨fun _ => h.2, fun hfound => absurd h.1 hfound⟩
    · intro h
      have hfound : (⟨.allSublink, testexpr, .query targetList rtable fromlist quals⟩ :
          Negated α).Found I D ρ := by
        by_contra hfound
        have hfalse := h.2 hfound
        rw [evalQuery_of_not_found hfound] at hfalse
        cases hfalse
      exact ⟨hfound, h.1 hfound⟩
  | exprSublink => exact absurd rfl hkind

end Negated

/-! ### Splitting at every depth -/

section

variable (I : Interp α) (D : Database α)

/-- The pass returns, and keeps the truth value of the condition in every environment. -/
def Kept (a : Node α) : Prop :=
  ∃ out, Returns a out ∧ ∀ ρ, evalCond I D out ρ = evalCond I D a ρ

/-- What the pass returns for a condition in which all sub-links under NOT are right. -/
structure Outcome (a out : Node α) : Prop where
  returns : Returns a out
  tree : Tree out
  orFree : orFree a = true → orFree out = true
  root : isOr out = isOr a
  value : ∀ ρ, evalCond I D out ρ = evalCond I D a ρ
  misled : ∀ ρ p, misled I D ρ p out = misled I D ρ p a

end

section

variable {I : Interp α} {D : Database α}

theorem outcome_copy {a : Node α} (hcopy : ∀ fuel, mutatorSplitDeep fuel a = some a)
    (htree : Tree a) : Outcome I D a a :=
  ⟨⟨0, fun fuel _ => hcopy fuel⟩, htree, id, rfl, fun _ => rfl, fun _ _ => rfl⟩

theorem outcome_subLink {kind : SubLinkType} {testexpr testexpr' : Node α}
    {targetList rtable : List (Node α)} {fromlist : List Nat} {quals : Node α}
    (hfree : orFree testexpr = true) (h : Outcome I D testexpr testexpr') :
    Outcome I D (.subLink kind testexpr (.query targetList rtable fromlist quals))
      (.subLink kind testexpr' (.query targetList rtable fromlist quals)) := by
  obtain ⟨enough, hrun⟩ := h.returns
  refine ⟨⟨enough, fun fuel hfuel => ?_⟩, .subLink (h.orFree hfree) rfl, fun _ => ?_, rfl,
    fun ρ => ?_, fun _ p => by cases p <;> rfl⟩
  · simp [mutatorSplitDeep, hrun fuel hfuel]
  · rw [orFree, h.orFree hfree]
    rfl
  · cases kind <;> simp only [evalCond, h.value]

section Arguments

variable {args outs : List (Node α)} (h : List.Forall₂ (Outcome I D) args outs)

include h

theorem evalConds_outcomes (ρ : Env α) : evalConds I D outs ρ = evalConds I D args ρ := by
  induction h with
  | nil => rfl
  | cons hhead _ ih => rw [evalConds, evalConds, hhead.value, ih]

theorem someMisled_outcomes (ρ : Env α) (p : Bool) :
    someMisled I D ρ p outs = someMisled I D ρ p args := by
  induction h with
  | nil => rfl
  | cons hhead _ ih => rw [someMisled, someMisled, hhead.misled, ih]

theorem eachReached_outcomes (ρ : Env α) : eachReached I D ρ outs = eachReached I D ρ args := by
  induction h with
  | nil => rfl
  | cons hhead _ ih => rw [eachReached, eachReached, hhead.value, hhead.misled, ih]

theorem misled_outcomes (boolop : BoolExprType) (ρ : Env α) (p : Bool) :
    misled I D ρ p (.boolExpr boolop outs) = misled I D ρ p (.boolExpr boolop args) := by
  have hvalues := evalConds_outcomes h ρ
  rw [evalConds_eq_map, evalConds_eq_map] at hvalues
  have hnone : ∀ t, noneIs I D ρ t outs = noneIs I D ρ t args := by
    intro t
    have hall := congrArg (List.all · (decide <| · ≠ t)) hvalues
    simpa only [noneIs, List.all_map, Function.comp_def] using hall
  have hany : (outs.any fun a => evalCond I D a ρ ≠ .false) =
      args.any fun a => evalCond I D a ρ ≠ .false := by
    have hany := congrArg (List.any · (decide <| · ≠ Kleene.false)) hvalues
    simpa only [List.any_map, Function.comp_def] using hany
  cases boolop <;> cases p <;>
    simp only [misled, hnone, hany, someMisled_outcomes h, eachReached_outcomes h]

/-- AND, OR and NOT, from their arguments. -/
theorem outcome_boolExpr {boolop : BoolExprType} (hne : boolop = .orExpr → args ≠ [])
    (hstep : ∀ fuel, mutatorSplitDeep fuel (.boolExpr boolop args) =
      (mutatorSplitDeepList fuel args).map (.boolExpr boolop)) :
    Outcome I D (.boolExpr boolop args) (.boolExpr boolop outs) := by
  obtain ⟨enough, hrun⟩ := mutatorSplitDeepList_returns (h.imp fun _ _ h => h.returns)
  have htrees : ∀ a ∈ outs, Tree a := forall_right_of_forall₂ h fun _ _ h => h.tree
  refine ⟨⟨enough, fun fuel hfuel => by rw [hstep, hrun fuel hfuel, Option.map_some]⟩, ?_, ?_,
    by cases boolop <;> rfl, fun ρ => ?_, misled_outcomes h boolop⟩
  · cases boolop with
    | andExpr => exact .and htrees
    | notExpr => exact .not htrees
    | orExpr =>
      refine .or (fun hnil => hne rfl ?_) htrees
      rw [hnil, List.forall₂_nil_right_iff] at h
      exact h
  · intro hfree
    have hargs : (∀ a ∈ args, Split.orFree a = true) → ∀ b ∈ outs, Split.orFree b = true :=
      forall_of_forall₂ h fun _ _ h => h.orFree
    cases boolop with
    | orExpr => cases hfree
    | andExpr | notExpr =>
      simp only [Split.orFree, orFreeList_iff] at hfree ⊢
      exact hargs hfree
  · cases boolop <;> simp only [evalCond, evalConds_outcomes h]

end Arguments

section

variable {kind : SubLinkType} {testexpr quals quals' : Node α} {targetList rtable : List (Node α)}
  {fromlist : List Nat}

theorem mutatorSplitDeep_notSubLink (kind : SubLinkType) (testexpr : Node α)
    (targetList rtable : List (Node α)) (fromlist : List Nat) (hquals : Returns quals quals') :
    ∃ enough, ∀ fuel ≥ enough, mutatorSplitDeep fuel (.boolExpr .notExpr
        [.subLink kind testexpr (.query targetList rtable fromlist quals)]) =
      optimizeSplit fuel (.query targetList rtable fromlist quals') := by
  obtain ⟨enough, hrun⟩ := hquals
  exact ⟨enough, fun fuel hfuel => by simp [mutatorSplitDeep, hrun fuel hfuel]⟩

/-- A WHERE with OR at its root keeps the pass from returning. -/
theorem isOr_of_returns (h : Outcome I D quals quals') {out : Node α}
    (hrun : Returns (.boolExpr .notExpr
      [.subLink kind testexpr (.query targetList rtable fromlist quals)]) out) :
    isOr quals = false := by
  obtain ⟨enough, hrun⟩ := hrun
  obtain ⟨enough', hstep⟩ := mutatorSplitDeep_notSubLink kind testexpr targetList rtable fromlist
    h.returns
  have hsplit := (hstep (max enough enough') (by omega)).symm.trans
    (hrun (max enough enough') (by omega))
  obtain ⟨result, hresult, _⟩ := Option.bind_eq_some_iff.mp hsplit
  rw [← h.root]
  by_contra hor
  rw [Bool.not_eq_false] at hor
  rw [trueSplit, trueSplitLoop_isOr ⟨quals', by simp, hor⟩] at hresult
  cases hresult

/-- What the pass returns for the NOT, from the WHERE of the sub-select: it has no OR, and is true
exactly where nothing is found. -/
theorem returns_notSubLink (kind : SubLinkType) (testexpr : Node α)
    (targetList rtable : List (Node α)) (fromlist : List Nat) (h : Outcome I D quals quals')
    (hroot : isOr quals = false) :
    ∃ out, Returns (.boolExpr .notExpr
        [.subLink kind testexpr (.query targetList rtable fromlist quals)]) out ∧
      orFree out = true ∧ Tree out ∧ ∀ ρ, evalCond I D out ρ ≠ .unknown ∧
        (evalCond I D out ρ = .true ↔ ¬(⟨kind, testexpr, .query targetList rtable fromlist quals⟩ :
          Negated α).Found I D ρ) := by
  obtain ⟨result, hne, hsplit, hreaches⟩ := trueSplit_reaches h.tree (h.root.trans hroot)
  obtain ⟨enough, hstep⟩ := mutatorSplitDeep_notSubLink kind testexpr targetList rtable fromlist
    h.returns
  refine ⟨conjoined (result.map fun t => notExists (.query targetList rtable fromlist t)),
    ⟨max enough (weight (notAsAnd quals') + 1), fun fuel hfuel => ?_⟩, orFree_conjoined.1,
    orFree_conjoined.2, fun ρ => ⟨evalCond_conjoined_ne_unknown, ?_⟩⟩
  · rw [hstep fuel (by omega)]
    exact optimizeSplit_eq (hsplit fuel (by omega)) hne _ _ _
  · rw [evalCond_conjoined_eq_true]
    simp only [hreaches, Reaches, h.value, h.misled]
    exact Iff.rfl

/-- The NOT keeps its truth value exactly where the sub-link asks only for what is found. -/
theorem value_iff_asks (hkind : kind ≠ .exprSublink) {out : Node α} {ρ : Env α}
    (hout : evalCond I D out ρ ≠ .unknown)
    (hfound : evalCond I D out ρ = .true ↔ ¬(⟨kind, testexpr, .query targetList rtable fromlist
      quals⟩ : Negated α).Found I D ρ) :
    evalCond I D out ρ = evalCond I D (.boolExpr .notExpr
        [.subLink kind testexpr (.query targetList rtable fromlist quals)]) ρ ↔
      (⟨kind, testexpr, .query targetList rtable fromlist quals⟩ : Negated α).Asks I D ρ := by
  rw [Negated.asks_iff hkind, evalCond_not]
  generalize evalCond I D (.subLink kind testexpr (.query targetList rtable fromlist quals)) ρ = v
  generalize evalCond I D out ρ = w at hout hfound
  generalize (⟨kind, testexpr, .query targetList rtable fromlist quals⟩ : Negated α).Found I D ρ = F
    at hfound
  by_cases hF : F <;> cases v <;> cases w <;> simp_all [Kleene.not]

theorem outcome_notSubLink (h : Outcome I D quals quals') (hkind : kind ≠ .exprSublink)
    (hright : (⟨kind, testexpr, .query targetList rtable fromlist quals⟩ :
      Negated α).SplitsRight I D) :
    ∃ out, Outcome I D (.boolExpr .notExpr
      [.subLink kind testexpr (.query targetList rtable fromlist quals)]) out := by
  obtain ⟨out, hreturns, hfree, htree, hvalue⟩ := returns_notSubLink kind testexpr targetList
    rtable fromlist h hright.root
  refine ⟨out, hreturns, htree, fun _ => hfree, isOr_of_orFree hfree, fun ρ => ?_, fun ρ p => ?_⟩
  · exact (value_iff_asks hkind (hvalue ρ).1 (hvalue ρ).2).mpr (hright.asks ρ)
  · rw [htree.misled_of_orFree hfree]
    cases p <;> simp [misled, someMisled, eachReached]

/-- If the pass keeps the NOT, the sub-link is right. -/
theorem splitsRight_of_kept (h : Outcome I D quals quals') (hkind : kind ≠ .exprSublink)
    (hkept : Kept I D (.boolExpr .notExpr
      [.subLink kind testexpr (.query targetList rtable fromlist quals)])) :
    (⟨kind, testexpr, .query targetList rtable fromlist quals⟩ : Negated α).SplitsRight I D := by
  obtain ⟨out, hreturns, hsame⟩ := hkept
  have hroot := isOr_of_returns h hreturns
  obtain ⟨out', hreturns', _, _, hvalue⟩ := returns_notSubLink kind testexpr targetList rtable
    fromlist h hroot
  obtain rfl := hreturns.unique hreturns'
  exact ⟨hroot, fun ρ => (value_iff_asks hkind (hvalue ρ).1 (hvalue ρ).2).mp (hsame ρ)⟩

end

theorem Condition.outcome {a : Node α} (h : Condition a)
    (hs : ∀ s ∈ rewritten a, s.SplitsRight I D) : ∃ out, Outcome I D a out := by
  induction h with
  | null => exact ⟨_, outcome_copy (fun _ => rfl) .null⟩
  | comparison hargs =>
    exact ⟨_, outcome_copy (Scalar.op hargs).copy (.comparison (orFreeList_iff.mpr fun a ha =>
      (hargs a ha).orFree))⟩
  | nullTest harg =>
    exact ⟨_, outcome_copy (fun fuel => by rw [mutatorSplitDeep, harg.copy]; rfl)
      (.nullTest harg.orFree)⟩
  | subLink hfree _ ih =>
    obtain ⟨testexpr', htest⟩ := ih hs
    exact ⟨_, outcome_subLink hfree htest⟩
  | and _ ih =>
    obtain ⟨outs, houts⟩ := exists_forall₂ fun a ha =>
      ih a ha fun s hsa => hs s (mem_rewrittenList.mpr ⟨a, ha, hsa⟩)
    exact ⟨_, outcome_boolExpr houts (by simp) fun fuel => mutatorSplitDeep_boolExpr (by simp) _ _⟩
  | or hne _ ih =>
    obtain ⟨outs, houts⟩ := exists_forall₂ fun a ha =>
      ih a ha fun s hsa => hs s (mem_rewrittenList.mpr ⟨a, ha, hsa⟩)
    exact ⟨_, outcome_boolExpr houts (fun _ => hne) fun fuel =>
      mutatorSplitDeep_boolExpr (by simp) _ _⟩
  | not ha _ ih =>
    rw [rewritten_not ha] at hs
    obtain ⟨out, hout⟩ := ih hs
    exact ⟨_, outcome_boolExpr (.cons hout .nil) (by simp) (mutatorSplitDeep_not ha)⟩
  | notSubLink hkind _ ih =>
    rw [rewritten, List.forall_mem_cons] at hs
    obtain ⟨quals', hquals⟩ := ih hs.2
    exact outcome_notSubLink hquals hkind hs.1

/-- If the pass keeps all NOTs over sub-links, the sub-links are right: those inside first. -/
theorem Condition.splitsRight {a : Node α} (h : Condition a)
    (hkept : ∀ s ∈ rewritten a, Kept I D s.node) : ∀ s ∈ rewritten a, s.SplitsRight I D := by
  induction h with
  | null => exact fun s hs => absurd hs List.not_mem_nil
  | comparison hargs =>
    intro s hs
    rw [(Scalar.op hargs).rewritten_eq_nil] at hs
    cases hs
  | nullTest harg =>
    intro s hs
    rw [rewritten, harg.rewritten_eq_nil] at hs
    cases hs
  | subLink _ _ ih => exact ih hkept
  | and _ ih | or _ _ ih =>
    intro s hs
    obtain ⟨a, ha, hsa⟩ := mem_rewrittenList.mp hs
    exact ih a ha (fun s' hs' => hkept s' (mem_rewrittenList.mpr ⟨a, ha, hs'⟩)) s hsa
  | not ha _ ih =>
    rw [rewritten_not ha] at hkept ⊢
    exact ih hkept
  | notSubLink hkind hquals ih =>
    rw [rewritten, List.forall_mem_cons] at hkept ⊢
    have hinner := ih hkept.2
    obtain ⟨quals', houtcome⟩ := hquals.outcome hinner
    exact ⟨splitsRight_of_kept houtcome hkind hkept.1, hinner⟩

end

/-- A sub-link under NOT that the pass rewrites is itself a condition under NOT, with its own
among the sub-links of the whole. -/
theorem Condition.negated {a : Node α} (h : Condition a) :
    ∀ s ∈ rewritten a, Condition s.node ∧ ∀ s' ∈ rewritten s.node, s' ∈ rewritten a := by
  induction h with
  | null => exact fun s hs => absurd hs List.not_mem_nil
  | comparison hargs =>
    intro s hs
    rw [(Scalar.op hargs).rewritten_eq_nil] at hs
    cases hs
  | nullTest harg =>
    intro s hs
    rw [rewritten, harg.rewritten_eq_nil] at hs
    cases hs
  | subLink _ _ ih => exact ih
  | and _ ih | or _ _ ih =>
    intro s hs
    obtain ⟨a, ha, hsa⟩ := mem_rewrittenList.mp hs
    obtain ⟨hcond, hsub⟩ := ih a ha s hsa
    exact ⟨hcond, fun s' hs' => mem_rewrittenList.mpr ⟨a, ha, hsub s' hs'⟩⟩
  | not ha _ ih =>
    rw [rewritten_not ha]
    exact ih
  | notSubLink hkind hquals ih =>
    intro s hs
    rw [rewritten] at hs ⊢
    rcases List.mem_cons.mp hs with rfl | hs
    · exact ⟨.notSubLink hkind hquals, fun s' hs' => hs'⟩
    · obtain ⟨hcond, hsub⟩ := ih s hs
      exact ⟨hcond, fun s' hs' => List.mem_cons_of_mem _ (hsub s' hs')⟩

/-- `mutator_split_deep` returns on a condition and on each NOT over a sub-link that it rewrites,
with the same truth value, if and only if the WHERE of each of these sub-selects has no OR at its
root, and each sub-link is true where some combination of FROM rows satisfies the WHERE or misleads
it: an EXISTS returns a row there, and an ANY one on which its test is true. -/
theorem mutatorSplitDeep_kept_iff (I : Interp α) (D : Database α) {a : Node α} (h : Condition a) :
    (Kept I D a ∧ ∀ s ∈ rewritten a, Kept I D s.node) ↔
      ∀ s ∈ rewritten a, s.SplitsRight I D := by
  refine ⟨fun hkept => h.splitsRight hkept.2, fun hright => ?_⟩
  obtain ⟨out, hout⟩ := h.outcome hright
  refine ⟨⟨out, hout.returns, hout.value⟩, fun s hs => ?_⟩
  obtain ⟨hcond, hsub⟩ := h.negated s hs
  obtain ⟨out', hout'⟩ := hcond.outcome fun s' hs' => hright s' (hsub s' hs')
  exact ⟨out', hout'.returns, hout'.value⟩

/-- NOT EXISTS without OR at the root of its WHERE and without ORs below an odd number of NOTs. -/
theorem splitsRight_exists (I : Interp α) (D : Database α) {testexpr quals : Node α}
    {targetList rtable : List (Node α)} {fromlist : List Nat} (hroot : isOr quals = false)
    (heven : evenOrs true quals = true) :
    (⟨.existsSublink, testexpr, .query targetList rtable fromlist quals⟩ :
      Negated α).SplitsRight I D := by
  refine ⟨hroot, fun ρ => ?_⟩
  rintro ⟨z, hz, hreaches⟩
  rw [Reaches, Node.quals, misled_of_evenOrs I D _ true quals heven] at hreaches
  have htrue : evalCond I D quals (ρ.push z) = .true := hreaches.resolve_right Bool.false_ne_true
  have hexists : evalCond I D (.subLink .existsSublink testexpr
      (.query targetList rtable fromlist quals)) ρ = .true :=
    evalCond_exists_eq_true.mpr ⟨z, hz, htrue⟩
  simpa [evalCond] using hexists

/-- `NOT EXISTS (SELECT FROM s WHERE (s.a = 1 OR s.a = 2) AND NOT EXISTS (SELECT FROM t WHERE
t.a = s.a))` -/
def nestedNotExists : Node Int :=
  notExists (.query [] [.rangeTblEntry .rteRelation 2 .null] [1] (.boolExpr .andExpr [
    .boolExpr .orExpr [.opExpr 96 [.var ⟨1, 1, 0⟩, .const (some 1)],
      .opExpr 96 [.var ⟨1, 1, 0⟩, .const (some 2)]],
    notExists (.query [] [.rangeTblEntry .rteRelation 3 .null] [1]
      (.opExpr 96 [.var ⟨1, 1, 0⟩, .var ⟨1, 1, 1⟩]))]))

theorem nestedNotExists_condition : Condition nestedNotExists := by
  refine .notSubLink (by simp) (.and ?_)
  simp only [List.forall_mem_cons, List.not_mem_nil, false_imp_iff, implies_true, and_true]
  refine ⟨.or (by simp) ?_, .notSubLink (by simp) (.comparison ?_)⟩
  · simp only [List.forall_mem_cons, List.not_mem_nil, false_imp_iff, implies_true, and_true]
    constructor <;> refine .comparison ?_ <;>
      simpa using ⟨Scalar.column, Scalar.constant⟩
  · simpa using ⟨Scalar.column, Scalar.column⟩

theorem mutatorSplitDeep_kept_iff_nested :
    ∃ out, Returns nestedNotExists out ∧ ∀ (I : Interp Int) (D : Database Int),
      Kept I D nestedNotExists ∧ ∀ ρ, evalCond I D out ρ = evalCond I D nestedNotExists ρ := by
  have hkept : ∀ (I : Interp Int) (D : Database Int), Kept I D nestedNotExists := by
    refine fun I D => ((mutatorSplitDeep_kept_iff I D nestedNotExists_condition).mpr ?_).1
    simp only [nestedNotExists, notExists, rewritten, rewrittenList, List.append_nil,
      List.nil_append, List.forall_mem_cons, List.not_mem_nil, false_imp_iff, implies_true,
      and_true]
    exact ⟨splitsRight_exists I D rfl rfl, splitsRight_exists I D rfl rfl⟩
  obtain ⟨out, hreturns, _⟩ := hkept intInterp fun _ => []
  refine ⟨out, hreturns, fun I D => ⟨hkept I D, ?_⟩⟩
  obtain ⟨out', hreturns', hvalue⟩ := hkept I D
  rwa [hreturns.unique hreturns']

/-- `NOT (r.a IN (SELECT s.a FROM s))` -/
def notIn : Node Int :=
  .boolExpr .notExpr [.subLink .anySublink (.opExpr 96 [.var ⟨1, 1, 0⟩, .param 1])
    (.query [.targetEntry (.var ⟨1, 1, 0⟩) 1] [.rangeTblEntry .rteRelation 2 .null] [1] .null)]

/-- With `r.a = 1` and one row `2` in `s`, the NOT IN is true, and the NOT EXISTS made from it is
false. -/
theorem mutatorSplitDeep_notIn_fails :
    Condition notIn ∧ ∃ out, mutatorSplitDeep 2 notIn = some out ∧
      evalCond intInterp (fun _ => [[some 2]]) notIn ⟨[[(1, [some 1])]], []⟩ = .true ∧
      evalCond intInterp (fun _ => [[some 2]]) out ⟨[[(1, [some 1])]], []⟩ = .false :=
  ⟨.notSubLink (by simp) .null, _, rfl, by decide, by decide⟩

end Infed.Split
