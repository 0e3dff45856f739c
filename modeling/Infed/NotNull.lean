import Infed.Fragment
import Mathlib.Data.Finset.Lattice.Lemmas

/-! The columns that cannot be NULL where a condition is true, and where it is not: the inductive
definition that the certain-answer passes compute with lists.  A comparison rejects NULLs in its
columns; AND and OR take unions and intersections; NOT exchanges the two sets; and a sub-select has
the sets of its WHERE. -/

namespace Infed

variable {α : Type}

/-- A relation and one of its attributes. -/
abbrev Column := Oid × Nat

/-- The columns of a list of true variables. -/
def columns (vars : List TrueVar) : Finset Column := (vars.map TrueVar.column).toFinset

theorem columns_append (vars vars' : List TrueVar) :
    columns (vars ++ vars') = columns vars ∪ columns vars' := by
  simp [columns, List.toFinset_append]

theorem columns_eq_empty {vars : List TrueVar} : columns vars = ∅ ↔ vars = [] := by
  simp [columns]

theorem mem_columns {vars : List TrueVar} {c : Column} :
    c ∈ columns vars ↔ c ∈ vars.map TrueVar.column := by
  rw [columns, List.mem_toFinset]

/-! ### Merging the sets of arguments -/

/-- The union of the sets, or their intersection for `false`. -/
def merge : Bool → List (Finset Column) → Finset Column
  | true, sets => sets.foldr (· ∪ ·) ∅
  | false, [] => ∅
  | false, set :: sets => sets.foldr (· ∩ ·) set

theorem mem_merge_true {sets : List (Finset Column)} {c : Column} :
    c ∈ merge true sets ↔ ∃ s ∈ sets, c ∈ s := by
  rw [merge]
  induction sets with
  | nil => simp
  | cons s sets ih => simp [ih]

theorem mem_merge_false {sets : List (Finset Column)} (hne : sets ≠ []) {c : Column} :
    c ∈ merge false sets ↔ ∀ s ∈ sets, c ∈ s := by
  cases sets with
  | nil => exact absurd rfl hne
  | cons s sets =>
    rw [merge]
    induction sets with
    | nil => simp
    | cons t sets ih =>
      simp only [List.forall_mem_cons] at ih
      simp only [List.foldr_cons, Finset.mem_inter, List.forall_mem_cons, ih (by simp)]
      exact and_left_comm

theorem merge_singleton (union : Bool) (s : Finset Column) : merge union [s] = s := by
  cases union <;> simp [merge]

/-! ### The sets of a condition -/

/-- The column that an argument of a comparison denotes. -/
def operandColumn (os : Scopes) : Node α → Option Column
  | .var v => columnOf os v
  | _ => none

mutual

/-- The columns that cannot be NULL where the condition is true, or, for `false`, where it is
not. -/
def notNull : Bool → Scopes → Node α → Finset Column
  | true, os, .opExpr _ args => (args.filterMap (operandColumn os)).toFinset
  | side, os, .boolExpr .andExpr args => merge side (notNullList side os args)
  | side, os, .boolExpr .orExpr args => merge (!side) (notNullList side os args)
  | side, os, .boolExpr .notExpr args => merge true (notNullList (!side) os args)
  | side, os, .subLink _ _ subselect => notNull side os subselect
  | side, os, .query _ rtable _ quals => notNull side (rtable.map relidOf :: os) quals
  | _, _, _ => ∅

def notNullList : Bool → Scopes → List (Node α) → List (Finset Column)
  | _, _, [] => []
  | side, os, node :: nodes => notNull side os node :: notNullList side os nodes

end

theorem notNullList_eq_map (side : Bool) (os : Scopes) (nodes : List (Node α)) :
    notNullList side os nodes = nodes.map (notNull side os) := by
  induction nodes with
  | nil => rfl
  | cons node nodes ih => rw [notNullList, ih, List.map_cons]

theorem notNull_not (side : Bool) (os : Scopes) (a : Node α) :
    notNull side os (.boolExpr .notExpr [a]) = notNull (!side) os a := by
  rw [notNull, notNullList_eq_map, List.map_singleton, merge_singleton]

theorem notNull_selectFrom (side : Bool) (os : Scopes) (targetList : List (Node α))
    (relids : List Oid) (quals : Node α) :
    notNull side os (selectFrom targetList relids quals) = notNull side (relids :: os) quals := by
  rw [selectFrom, notNull, map_relidOf_baseTable]

theorem notNull_existsFrom (side : Bool) (os : Scopes) (targetList : List (Node α))
    (relids : List Oid) (quals : Node α) :
    notNull side os (existsFrom targetList relids quals) = notNull side (relids :: os) quals := by
  rw [existsFrom, notNull, notNull_selectFrom]

end Infed
