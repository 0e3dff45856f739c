import Infed.Kleene
import Infed.Node
import Infed.Pointwise
import Mathlib.Data.List.Sections

/-! The meaning of a query: SQL's bag semantics with three-valued conditions.  A database gives each
relation a list of rows, a row is a list of values with `none` for NULL, and a query returns the
list of its rows.  The operators of the catalog are a parameter.  A `NULL` pointer in the place of a
condition is true, and a bare `List` is the conjunction of its elements. -/

namespace Infed

variable {α : Type}

abbrev Row (α : Type) := List (Option α)

abbrev Database (α : Type) := Oid → List (Row α)

/-- What the operators mean: `test` for those that return a Boolean, `apply` for the others. -/
structure Interp (α : Type) where
  test : Oid → List (Option α) → Kleene
  apply : Oid → List (Option α) → Option α

/-- The operator is unknown as soon as an argument is NULL. -/
def Interp.Strict (I : Interp α) (opno : Oid) : Prop :=
  ∀ args, none ∈ args → I.test opno args = .unknown

/-- The comparisons of integers, by operator OID; an operator without a case of its own is an
equality. -/
def intCompare (opno : Oid) (a b : Int) : Bool :=
  match opno with
  | 518 => a ≠ b
  | 97 => a < b
  | 521 => a > b
  | 523 => a ≤ b
  | 525 => a ≥ b
  | _ => a = b

def intInterp : Interp Int where
  test opno args :=
    match args with
    | [some a, some b] => .ofBool (intCompare opno a b)
    | _ => .unknown
  apply _ _ := none

theorem intInterp_strict (opno : Oid) : intInterp.Strict opno := by
  intro args hnone
  simp only [intInterp]
  split
  · simp at hnone
  · rfl

/-- The rows that the columns of an expression refer to: for each query around it, innermost first,
the row of each FROM entry, and the row that a sub-link's test expression compares with. -/
structure Env (α : Type) where
  levels : List (List (Nat × Row α))
  param : Row α

namespace Env

/-- The environment of a query that is in no other. -/
def empty : Env α := ⟨[], []⟩

def push (ρ : Env α) (z : List (Nat × Row α)) : Env α := { ρ with levels := z :: ρ.levels }

/-- The row of the `varno`-th FROM entry, `varlevelsup` levels up. -/
def row (ρ : Env α) (varlevelsup varno : Nat) : Row α :=
  ((ρ.levels.getD varlevelsup []).lookup varno).getD []

def column (ρ : Env α) (v : Var) : Option α := (ρ.row v.varlevelsup v.varno).getD
    (v.varattno - 1) none

@[simp] theorem push_levels (ρ : Env α) (z : List (Nat × Row α)) :
    (ρ.push z).levels = z :: ρ.levels := rfl

@[simp] theorem push_param (ρ : Env α) (z : List (Nat × Row α)) : (ρ.push z).param = ρ.param := rfl

end Env

/-- The choices of one row for each entry of a FROM list, from the rows of the range table. -/
def combinations (tables : List (List (Row α))) (fromlist : List Nat) : List (List (Nat × Row α)) :=
  List.sections (fromlist.map fun i => (tables.getD (i - 1) []).map fun r => (i, r))

section

variable (I : Interp α) (D : Database α)

mutual

def evalScalar : Node α → Env α → Option α
  | .var v, ρ => ρ.column v
  | .const c, _ => c
  | .param i, ρ => ρ.param.getD (i - 1) none
  | .opExpr opno args, ρ => I.apply opno (evalScalars args ρ)
  | .targetEntry expr _, ρ => evalScalar expr ρ
  | .subLink .exprSublink _ q, ρ => ((evalQuery q ρ).headD []).headD none
  | _, _ => none

def evalScalars : List (Node α) → Env α → List (Option α)
  | [], _ => []
  | node :: nodes, ρ => evalScalar node ρ :: evalScalars nodes ρ

def evalCond : Node α → Env α → Kleene
  | .null, _ => .true
  | .opExpr opno args, ρ => I.test opno (evalScalars args ρ)
  | .boolExpr .andExpr args, ρ => .conj (evalConds args ρ)
  | .boolExpr .orExpr args, ρ => .disj (evalConds args ρ)
  | .boolExpr .notExpr args, ρ => (Kleene.conj (evalConds args ρ)).not
  | .nullTest .isNull arg, ρ => .ofBool (evalScalar arg ρ).isNone
  | .nullTest .isNotNull arg, ρ => .ofBool (evalScalar arg ρ).isSome
  | .subLink .existsSublink _ q, ρ => .ofBool !(evalQuery q ρ).isEmpty
  | .subLink .anySublink test q, ρ =>
    .disj ((evalQuery q ρ).map fun r => evalCond test { ρ with param := r })
  | .subLink .allSublink test q, ρ =>
    .conj ((evalQuery q ρ).map fun r => evalCond test { ρ with param := r })
  | .list elems, ρ => .conj (evalConds elems ρ)
  | _, _ => .unknown

def evalConds : List (Node α) → Env α → List Kleene
  | [], _ => []
  | node :: nodes, ρ => evalCond node ρ :: evalConds nodes ρ

/-- The rows of a query inside the queries of `ρ`: of the combinations of FROM rows, those on which
the WHERE is true, each projected to the target list. -/
def evalQuery : Node α → Env α → List (Row α)
  | .query targetList rtable fromlist quals, ρ =>
    ((combinations (evalRtable rtable (ρ.push [])) fromlist).filter
      fun z => evalCond quals (ρ.push z) = .true).map fun z => evalScalars targetList (ρ.push z)
  | _, _ => []

/-- The rows of a FROM entry.  A sub-select in FROM is one level below the query that it belongs
to, of whose rows it sees none. -/
def evalRte : Node α → Env α → List (Row α)
  | .rangeTblEntry .rteRelation relid _, _ => D relid
  | .rangeTblEntry .rteSubquery _ q, ρ => evalQuery q ρ
  | _, _ => []

def evalRtable : List (Node α) → Env α → List (List (Row α))
  | [], _ => []
  | node :: nodes, ρ => evalRte node ρ :: evalRtable nodes ρ

end

end

variable {I : Interp α} {D : Database α}

theorem evalScalars_eq_map (nodes : List (Node α)) (ρ : Env α) :
    evalScalars I D nodes ρ = nodes.map fun node => evalScalar I D node ρ := by
  induction nodes with
  | nil => rfl
  | cons node nodes ih => simp [evalScalars, ih]

theorem evalConds_eq_map (nodes : List (Node α)) (ρ : Env α) :
    evalConds I D nodes ρ = nodes.map fun node => evalCond I D node ρ := by
  induction nodes with
  | nil => rfl
  | cons node nodes ih => simp [evalConds, ih]

theorem evalRtable_eq_map (nodes : List (Node α)) (ρ : Env α) :
    evalRtable I D nodes ρ = nodes.map fun node => evalRte I D node ρ := by
  induction nodes with
  | nil => rfl
  | cons node nodes ih => simp [evalRtable, ih]

theorem evalCond_and_eq_true {args : List (Node α)} {ρ : Env α} :
    evalCond I D (.boolExpr .andExpr args) ρ = .true ↔ ∀ a ∈ args, evalCond I D a ρ = .true := by
  simp [evalCond, evalConds_eq_map, Kleene.conj_eq_true_iff]

theorem evalCond_list_eq_true {elems : List (Node α)} {ρ : Env α} :
    evalCond I D (.list elems) ρ = .true ↔ ∀ a ∈ elems, evalCond I D a ρ = .true := by
  simp [evalCond, evalConds_eq_map, Kleene.conj_eq_true_iff]

theorem evalCond_or_eq_true {args : List (Node α)} {ρ : Env α} :
    evalCond I D (.boolExpr .orExpr args) ρ = .true ↔ ∃ a ∈ args, evalCond I D a ρ = .true := by
  simp only [evalCond, evalConds_eq_map, Kleene.disj_eq_true_iff, List.mem_map,
    exists_exists_and_eq_and]

theorem evalCond_and_eq_false {args : List (Node α)} {ρ : Env α} :
    evalCond I D (.boolExpr .andExpr args) ρ = .false ↔ ∃ a ∈ args, evalCond I D a ρ = .false := by
  simp only [evalCond, evalConds_eq_map, Kleene.conj_eq_false_iff, List.mem_map,
    exists_exists_and_eq_and]

theorem evalCond_or_eq_false {args : List (Node α)} {ρ : Env α} :
    evalCond I D (.boolExpr .orExpr args) ρ = .false ↔ ∀ a ∈ args, evalCond I D a ρ = .false := by
  simp [evalCond, evalConds_eq_map, Kleene.disj_eq_false_iff]

@[simp] theorem evalCond_not (a : Node α) (ρ : Env α) :
    evalCond I D (.boolExpr .notExpr [a]) ρ = (evalCond I D a ρ).not := by
  simp only [evalCond, evalConds, Kleene.conj_singleton]

/-- EXISTS is two-valued. -/
theorem evalCond_exists_ne_true {a : Node α} (ha : a.isExists) {ρ : Env α} :
    evalCond I D a ρ ≠ .true ↔ evalCond I D a ρ = .false := by
  unfold Node.isExists at ha
  split at ha
  · simp only [evalCond]
    exact Kleene.ofBool_ne_true
  · cases ha

/-- EXISTS is true exactly when a combination of FROM rows satisfies the WHERE. -/
theorem evalCond_exists_eq_true {test : Node α} {tl rt : List (Node α)} {fl : List Nat}
    {quals : Node α} {ρ : Env α} :
    evalCond I D (.subLink .existsSublink test (.query tl rt fl quals)) ρ = .true ↔
      ∃ z ∈ combinations (evalRtable I D rt (ρ.push [])) fl,
        evalCond I D quals (ρ.push z) = .true := by
  simp only [evalCond, evalQuery, Kleene.ofBool_eq_true, List.isEmpty_map, Bool.not_eq_true',
    List.isEmpty_eq_false_iff, ne_eq, List.filter_eq_nil_iff, decide_eq_true_eq]
  push Not
  rfl

end Infed
