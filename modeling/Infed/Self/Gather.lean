import Infed.Eval
import Infed.Self.Pass

/-! What `my_modifier_self` takes out of an AND: the comparisons and null tests of a single table of
the query, merged table by table.  Of two columns of different tables it keeps the comparison, and
it does not look into sub-selects. -/

namespace Infed.Self

variable {α : Type} {n : Nat} {I : Interp α} {D : Database α}

/-! ### Constraints on one table -/

/-- A column of the `i`-th FROM entry, or a constant. -/
inductive Own (i : Nat) : Node α → Prop where
  | column {varattno} : Own i (.var ⟨i, varattno, 0⟩)
  | constant {c} : Own i (.const c)

/-- A comparison or null test on the columns of the `i`-th FROM entry. -/
inductive Local (i : Nat) : Node α → Prop where
  | comparison {opno args} : (∀ a ∈ args, Own i a) → (∃ v, .var v ∈ args) →
    Local i (.opExpr opno args)
  | nullTest {test varattno} : Local i (.nullTest test (.var ⟨i, varattno, 0⟩))

/-- One more constraint on the same table. -/
def merge (c : Node α) : Node α → Node α
  | .boolExpr .andExpr args => .list (args ++ [c])
  | t => .boolExpr .andExpr [t, c]

theorem Local.merge_eq {i : Nat} {t c : Node α} (h : Local i t) :
    merge c t = .boolExpr .andExpr [t, c] := by
  cases h <;> rfl

theorem evalCond_merge (c t : Node α) (ρ : Env α) : evalCond I D (merge c t) ρ = .true ↔
    evalCond I D t ρ = .true ∧ evalCond I D c ρ = .true := by
  unfold merge
  split
  · simp [evalCond, evalConds_eq_map, Kleene.conj_append]
  · simp [evalCond, evalConds]

/-! ### Merging -/

/-- `temp_modifier_add` on a column of the `i`-th FROM entry. -/
def TempContext.mark (i : Nat) (context : TempContext α) : TempContext α :=
  if context.tableToAdd = some (i, 0) then { context with toAdd := true } else context

@[simp] theorem TempContext.mark_mark (i : Nat) (context : TempContext α) :
    (context.mark i).mark i = context.mark i := by
  unfold TempContext.mark
  split <;> simp_all

theorem mutate_own {i : Nat} {a : Node α} (h : Own i a) (context : TempContext α) :
    mutate tempModifierAdd a (context.mark i) = some (a, context.mark i) := by
  cases h with
  | column => exact congrArg (fun c => some (_, c)) (context.mark_mark i)
  | constant => rfl

theorem mutateList_own {i : Nat} {args : List (Node α)} (h : ∀ a ∈ args, Own i a)
    (context : TempContext α) :
    mutateList tempModifierAdd args (context.mark i) = some (args, context.mark i) := by
  induction args with
  | nil => rfl
  | cons a args ih =>
    rw [List.forall_mem_cons] at h
    exact mutateList_cons (mutate_own h.1 context) (ih h.2)

theorem mutateList_column {i : Nat} {args : List (Node α)} (h : ∀ a ∈ args, Own i a)
    (hvar : ∃ v, .var v ∈ args) (context : TempContext α) :
    mutateList tempModifierAdd args context = some (args, context.mark i) := by
  induction args with
  | nil => simp at hvar
  | cons a args ih =>
    rw [List.forall_mem_cons] at h
    cases h.1 with
    | column => exact mutateList_cons rfl (mutateList_own h.2 context)
    | constant => exact mutateList_cons rfl (ih h.2 (by simpa using hvar))

theorem mutate_local {i : Nat} {c : Node α} (h : Local i c) (context : TempContext α) :
    mutate tempModifierAdd c context = some (c, context.mark i) := by
  cases h with
  | comparison h hvar => simp [mutate, tempModifierAdd, mutateList_column h hvar]
  | nullTest => rfl

/-- The loop of `add_constrain` copies what comes after the table's constraints. -/
theorem addConstrainLoop_alreadyAdd {context : TempContext α} (h : context.alreadyAdd = true)
    (list : List (Node α)) : addConstrainLoop list context = some (list, context) := by
  induction list with
  | nil => rfl
  | cons t list ih => simp [addConstrainLoop, h, ih]

/-- One more constraint on the `i`-th FROM entry, among the constraints table by table. -/
def insertConstraint (i : Nat) (c : Node α) : List (Nat × Node α) → List (Nat × Node α)
  | [] => [(i, c)]
  | (j, t) :: gs => if j = i then (j, merge c t) :: gs else (j, t) :: insertConstraint i c gs

theorem evalCond_insertConstraint {i : Nat} {c : Node α} {gs : List (Nat × Node α)} {ρ : Env α} :
    (∀ g ∈ insertConstraint i c gs, evalCond I D g.2 ρ = .true) ↔
      evalCond I D c ρ = .true ∧ ∀ g ∈ gs, evalCond I D g.2 ρ = .true := by
  induction gs with
  | nil => simp [insertConstraint]
  | cons g gs ih =>
    obtain ⟨j, t⟩ := g
    rw [insertConstraint]
    split
    · rw [List.forall_mem_cons, List.forall_mem_cons, evalCond_merge, and_assoc]
      exact and_left_comm
    · rw [List.forall_mem_cons, List.forall_mem_cons, ih]
      exact and_left_comm

/-! ### Conjuncts that stay -/

/-- The flags between two conjuncts. -/
structure Quiet (context : ContextOptimizerSelf α) : Prop where
  disjunction : context.disjunction = false
  equality : context.equality = false
  add : context.add = false
  tableToAddEq : context.tableToAddEq = none

theorem quiet_make : Quiet (makeContextOptimizerSelf : ContextOptimizerSelf α) :=
  ⟨rfl, rfl, rfl, rfl⟩

theorem Quiet.after {context : ContextOptimizerSelf α} (h : Quiet context) (tableToAdd : Table)
    (alreadyConstrainRel : List (Node α)) :
    Quiet { context with tableToAdd, alreadyConstrainRel } :=
  ⟨h.disjunction, h.equality, h.add, h.tableToAddEq⟩

/-- What `my_modifier_self` leaves in place: a comparison of columns of two tables, a sub-select,
and a negated one. -/
inductive Kept : Node α → Prop where
  | linking {opno v w} : tableOf v ≠ tableOf w → Kept (.opExpr opno [.var v, .var w])
  | exist {targetList rtable fromlist quals} :
    Kept (.subLink .existsSublink .null (.query targetList rtable fromlist quals))
  | notExist {targetList rtable fromlist quals} :
    Kept (.boolExpr .notExpr [.subLink .existsSublink .null
      (.query targetList rtable fromlist quals)])

theorem modify_kept {context : ContextOptimizerSelf α} (hq : Quiet context) {a : Node α}
    (h : Kept a) : ∃ tableToAdd, mutate myModifierSelf a context =
      some (a, { context with tableToAdd }) := by
  obtain ⟨disjunction, equality, add, already, table, tableOr, tableEq⟩ := context
  obtain ⟨hor, heq, hadd, htable⟩ := hq
  simp only at hor heq hadd htable
  subst hor heq hadd htable
  cases h with
  | @linking opno v w hne =>
    refine ⟨tableOf v, ?_⟩
    simp [mutate, mutateList, myModifierSelf, ContextOptimizerSelf.enterVar, Table.differs, hne]
    simp [tableOf]
  | exist => exact ⟨table, rfl⟩
  | notExist => exact ⟨table, rfl⟩

/-- NULL and what stays are copied, and no constraint is added. -/
theorem modifyList_kept {args : List (Node α)} (h : ∀ a ∈ args, a = .null ∨ Kept a)
    {context : ContextOptimizerSelf α} (hq : Quiet context) :
    ∃ tableToAdd, mutateList myModifierSelf args context =
      some (args, { context with tableToAdd }) := by
  induction args generalizing context with
  | nil => exact ⟨context.tableToAdd, rfl⟩
  | cons a args ih =>
    rw [List.forall_mem_cons] at h
    obtain ⟨table, hhead⟩ : ∃ tableToAdd, mutate myModifierSelf a context =
        some (a, { context with tableToAdd }) := by
      rcases h.1 with rfl | hkept
      · exact ⟨context.tableToAdd, rfl⟩
      · exact modify_kept hq hkept
    obtain ⟨table', htail⟩ := ih h.2 (hq.after table context.alreadyConstrainRel)
    exact ⟨table', mutateList_cons hhead htail⟩

theorem modify_and {args : List (Node α)} (h : ∀ a ∈ args, a = .null ∨ Kept a) :
    ∃ tableToAdd, mutate myModifierSelf (.boolExpr .andExpr args) makeContextOptimizerSelf =
      some (.boolExpr .andExpr args, { makeContextOptimizerSelf with tableToAdd }) := by
  obtain ⟨table, hrun⟩ := modifyList_kept h quiet_make
  exact ⟨table, by simp [mutate, myModifierSelf, hrun]⟩

/-- Without constraints to move, the query stays as it is. -/
theorem optimizeSelfConstraint_quiet {targetList rtable : List (Node α)} {fromlist : List Nat}
    {quals : Node α} {tableToAdd : Table}
    (h : mutate myModifierSelf quals makeContextOptimizerSelf =
      some (quals, { makeContextOptimizerSelf with tableToAdd })) :
    optimizeSelfConstraint (.query targetList rtable fromlist quals) =
      some (.query targetList rtable fromlist quals) := by
  simp [optimizeSelfConstraint, h]
  simp [makeContextOptimizerSelf, rewriteSelf]

/-! ### A whole AND -/

/-- A column of an enclosing query or of one of the `n` FROM entries, or a constant. -/
inductive Operand (n : Nat) : Node α → Prop where
  | column {v : Var} : (v.varlevelsup = 0 → 1 ≤ v.varno ∧ v.varno ≤ n) → Operand n (.var v)
  | constant {c} : Operand n (.const c)

/-- A conjunct of the WHERE of a query with `n` FROM entries: a comparison of one or two columns or
constants, a null test on a column, EXISTS, or NOT EXISTS.  A comparison or null test has a column
of the query itself. -/
inductive Conjunct (n : Nat) : Node α → Prop where
  | unary {opno a} : Operand n a → (∃ v, a = .var v ∧ v.varlevelsup = 0) →
    Conjunct n (.opExpr opno [a])
  | binary {opno a b} : Operand n a → Operand n b →
    (∃ v, (a = .var v ∨ b = .var v) ∧ v.varlevelsup = 0) → Conjunct n (.opExpr opno [a, b])
  | nullTest {test v} : Operand n (.var v : Node α) → v.varlevelsup = 0 →
    Conjunct n (.nullTest test (.var v))
  | exist {targetList rtable fromlist quals} :
    Conjunct n (.subLink .existsSublink .null (.query targetList rtable fromlist quals))
  | notExist {targetList rtable fromlist quals} :
    Conjunct n
      (.boolExpr .notExpr [.subLink .existsSublink .null (.query targetList rtable fromlist quals)])

theorem Operand.own {v : Var} (h : Operand n (.var v : Node α)) (hv : v.varlevelsup = 0) :
    1 ≤ v.varno ∧ v.varno ≤ n ∧ Own v.varno (.var v : Node α) := by
  cases h with
  | column h =>
    obtain ⟨h1, hn⟩ := h hv
    obtain ⟨varno, varattno, varlevelsup⟩ := v
    subst hv
    exact ⟨h1, hn, .column⟩

/-- The condition is on a single one of `n` FROM entries, and moves, or it stays. -/
def LocalOrKept (n : Nat) (a : Node α) : Prop := (∃ i, 1 ≤ i ∧ i ≤ n ∧ Local i a) ∨ Kept a

theorem Conjunct.local_or_kept {a : Node α} (h : Conjunct n a) : LocalOrKept n a := by
  cases h with
  | unary ha hvar =>
    obtain ⟨v, rfl, hv⟩ := hvar
    obtain ⟨h1, hn, hown⟩ := ha.own hv
    exact .inl ⟨v.varno, h1, hn, .comparison (by simpa using hown) ⟨v, by simp⟩⟩
  | @binary opno a b ha hb hvar =>
    obtain ⟨v, rfl | rfl, hv⟩ := hvar
    · obtain ⟨h1, hn, hown⟩ := ha.own hv
      cases hb with
      | constant =>
        exact .inl ⟨v.varno, h1, hn, .comparison (by simpa using ⟨hown, .constant⟩) ⟨v, by simp⟩⟩
      | @column w hw =>
        by_cases hvw : tableOf v = tableOf w
        · obtain ⟨hno, hlevel⟩ : v.varno = w.varno ∧ v.varlevelsup = w.varlevelsup := by
            simpa [tableOf] using hvw
          have hown' := (Operand.own (α := α) (.column hw) (hlevel ▸ hv)).2.2
          exact .inl ⟨v.varno, h1, hn,
            .comparison (by simpa using ⟨hown, hno ▸ hown'⟩) ⟨v, by simp⟩⟩
        · exact .inr (.linking hvw)
    · obtain ⟨h1, hn, hown⟩ := hb.own hv
      cases ha with
      | constant =>
        exact .inl ⟨v.varno, h1, hn, .comparison (by simpa using ⟨.constant, hown⟩) ⟨v, by simp⟩⟩
      | @column w hw =>
        by_cases hvw : tableOf w = tableOf v
        · obtain ⟨hno, hlevel⟩ : w.varno = v.varno ∧ w.varlevelsup = v.varlevelsup := by
            simpa [tableOf] using hvw
          have hown' := (Operand.own (α := α) (.column hw) (hlevel ▸ hv)).2.2
          exact .inl ⟨v.varno, h1, hn,
            .comparison (by simpa using ⟨hno ▸ hown', hown⟩) ⟨v, by simp⟩⟩
        · exact .inr (.linking hvw)
  | @nullTest test v hv hlevel =>
    obtain ⟨h1, hn, _⟩ := hv.own hlevel
    obtain ⟨varno, varattno, varlevelsup⟩ := v
    subst hlevel
    exact .inl ⟨varno, h1, hn, .nullTest⟩
  | exist => exact .inr .exist
  | notExist => exact .inr .notExist

end Infed.Self
