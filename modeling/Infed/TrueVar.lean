import Infed.CellList
import Infed.Node

/-! `true_var.c`: the columns that the certain-answer passes reason about, and the contexts of their
walker and mutator.

A true variable is a `Var` node that the walker allocates for each column of each FROM entry, with
the relation's OID in `vartype`.  Its identity as a node is the FROM entry it was allocated for,
counted in the order of the walk, with its attribute number; `isInListTrueVar` compares relation and
attribute instead. -/

namespace Infed

open CellList

/-- What the passes read of the system catalogs. -/
structure Catalog where
  relnatts : Oid → Nat
  attnotnull : Oid → Nat → Bool

/-- A node allocated by `makeNode(Var)` in the walker: for attribute `varattno` of the relation
`vartype`, at the `rte`-th range table entry that the walker met. -/
structure TrueVar where
  rte : Nat
  vartype : Oid
  varattno : Nat
  deriving DecidableEq, Repr

/-- The relation and attribute, which is what `isInListTrueVar` compares. -/
def TrueVar.column (v : TrueVar) : Oid × Nat := (v.vartype, v.varattno)

/-- A value of `current_trueVar`: a list with the value of the enclosing query first, and then the
true variables of each FROM entry. -/
inductive Scope where
  | root
  | level (parent : Scope) (relations : List (List TrueVar))
  deriving Repr

namespace Scope

def parent : Scope → Option Scope
  | root => none
  | level parent _ => some parent

def relations : Scope → List (List TrueVar)
  | root => []
  | level _ relations => relations

/-- The scope `n` queries further out: `temp = list_nth(temp, 0)`, `n` times. -/
def up : Nat → Scope → Option Scope
  | 0, s => some s
  | n + 1, s => s.parent.bind (up n)

/-- `lappend` on `current_trueVar`. -/
def lappend (s : Scope) (relation : List TrueVar) : Scope :=
  match s with
  | root => level root [relation]
  | level parent relations => level parent (relations ++ [relation])

end Scope

/-- `list_nth`, without its assertions: `n` cells on from the head, so that a negative index gives
the head itself, and NULL is dereferenced behind the end of the list. -/
def listNth {β : Type} (l : List β) (n : Int) : Option β := l[n.toNat]?

/-- The FROM entry that a `varno` denotes; they are counted from 1. -/
def entryAt {β : Type} (l : List β) : Nat → Option β
  | 0 => none
  | varno + 1 => l[varno]?

/-- `getTrueVar`; in the list of a scope, the scope of the enclosing query stands at 0. -/
def getTrueVar (currentTrueVars : Scope) (v : Var) : Option TrueVar := do
  let temp ← currentTrueVars.up v.varlevelsup
  let relation ← entryAt temp.relations v.varno
  listNth relation ((v.varattno : Int) - 1)

def isInListTrueVar (trueVars : List TrueVar) (v : TrueVar) : Bool :=
  trueVars.any fun t => t.varattno == v.varattno && t.vartype == v.vartype

/-- The loop of `union_list` and `inter_list`: the elements that pass the test, in order, each
column once. -/
def keepNew (test : TrueVar → Bool) (l : List TrueVar) : List TrueVar :=
  l.foldl (fun new t => if test t && !isInListTrueVar new t then new ++ [t] else new) []

def unionList (l : List TrueVar) : List TrueVar := keepNew (fun _ => true) l

def interList (l : List TrueVar) (nbArg : Nat) : List TrueVar :=
  keepNew (fun v => l.countP (fun t => v.varattno == t.varattno && v.vartype == t.vartype) ==
    nbArg) l

/-- The walker's context.  The four lists of columns are pointers into `heap`, where `list_concat`
lets them share cells; `rtes` counts the range table entries met, for the identity of the nodes
allocated. -/
structure ContextWalkerSetConstraint where
  trueVars : List Scope
  currentTrueVar : Scope
  listOfNotNullAttSchem : List TrueVar
  listOfNotNullInOp : ListPtr
  listOfNotNullToBeTrue : ListPtr
  listOfNotNullToBeFalse : ListPtr
  ready : Bool
  listListTrue : List ListPtr
  listListFalse : List ListPtr
  heap : Heap TrueVar
  rtes : Nat

def makeContextWalkerSetConstraint : ContextWalkerSetConstraint where
  trueVars := []
  currentTrueVar := .root
  listOfNotNullAttSchem := []
  listOfNotNullInOp := none
  listOfNotNullToBeTrue := none
  listOfNotNullToBeFalse := none
  ready := false
  listListTrue := []
  listListFalse := []
  heap := .empty
  rtes := 0

/-- The mutator's context.  It copies a list of columns before extending it, so its lists are
values. -/
structure ContextModifier (α : Type) where
  positive : Bool
  ready : Bool
  constraintToAdd : List (Node α)
  trueVars : List Scope
  currentTrueVar : Scope
  listOfNotNullInCurrent : List TrueVar
  listListTrue : List (List TrueVar)
  listListFalse : List (List TrueVar)
  whereIAm : Nat
  whereIAmQuerry : Nat

/-- The mutator's context after a walk: each recorded set is what its cells hold by then. -/
def makeContextModifier {α : Type} (positive : Bool) (context : ContextWalkerSetConstraint) :
    Option (ContextModifier α) := do
  let currentTrueVar ← listNth context.trueVars 0
  let listListTrue ← context.listListTrue.mapM context.heap.foreach
  let listListFalse ← context.listListFalse.mapM context.heap.foreach
  some {
    positive
    ready := false
    constraintToAdd := []
    trueVars := context.trueVars
    currentTrueVar
    listOfNotNullInCurrent := context.listOfNotNullAttSchem
    listListTrue
    listListFalse
    whereIAm := 0
    whereIAmQuerry := 0 }

/-! ### Membership and the two set operations -/

theorem isInListTrueVar_iff {l : List TrueVar} {v : TrueVar} :
    isInListTrueVar l v = true ↔ v.column ∈ l.map TrueVar.column := by
  simp only [isInListTrueVar, List.any_eq_true, Bool.and_eq_true, beq_iff_eq, List.mem_map,
    TrueVar.column, Prod.mk.injEq]
  exact ⟨fun ⟨t, ht, h1, h2⟩ => ⟨t, ht, h2, h1⟩, fun ⟨t, ht, h1, h2⟩ => ⟨t, ht, h2, h1⟩⟩

@[simp] theorem listNth_natCast {β : Type} (l : List β) (n : Nat) : listNth l n = l[n]? := by
  rw [listNth, Int.toNat_natCast]

@[simp] theorem listNth_sub_one {β : Type} (l : List β) (n : Nat) :
    listNth l ((n : Int) - 1) = l[n - 1]? := by
  rw [listNth, show ((n : Int) - 1).toNat = n - 1 by omega]

theorem mem_of_listNth {β : Type} {l : List β} {n : Int} {x : β} (h : listNth l n = some x) :
    x ∈ l :=
  List.mem_of_getElem? h

theorem entryAt_of_pos {β : Type} (l : List β) {n : Nat} (hn : 1 ≤ n) :
    entryAt l n = l[n - 1]? := by
  obtain ⟨n, rfl⟩ := Nat.exists_eq_add_of_le' hn
  rfl

theorem entryAt_eq_some {β : Type} {l : List β} {n : Nat} {x : β} (h : entryAt l n = some x) :
    1 ≤ n ∧ n ≤ l.length ∧ l[n - 1]? = some x := by
  cases n with
  | zero => cases h
  | succ n => exact ⟨by omega, (List.getElem?_eq_some_iff.mp h).1, h⟩

/-- The loop of `keepNew` from the elements `acc` kept so far. -/
theorem keepNew_loop (test : TrueVar → Bool) (l acc : List TrueVar)
    (hacc : (acc.map TrueVar.column).Nodup) :
    let out := l.foldl (fun new t => if test t && !isInListTrueVar new t then new ++ [t] else new)
      acc
    (out.map TrueVar.column).Nodup ∧ (∀ v ∈ out, v ∈ acc ∨ v ∈ l ∧ test v = true) ∧
      (∀ c, c ∈ out.map TrueVar.column ↔ c ∈ acc.map TrueVar.column ∨
        ∃ v ∈ l, test v = true ∧ v.column = c) := by
  induction l generalizing acc with
  | nil => exact ⟨hacc, fun v hv => .inl hv, by simp⟩
  | cons t l ih =>
    simp only [List.foldl_cons]
    by_cases hkeep : (test t && !isInListTrueVar acc t) = true
    · have htest : test t = true := by simp only [Bool.and_eq_true] at hkeep; exact hkeep.1
      have hnew : t.column ∉ acc.map TrueVar.column := by
        simp only [Bool.and_eq_true, Bool.not_eq_true'] at hkeep
        rw [← isInListTrueVar_iff, hkeep.2]
        simp
      rw [if_pos hkeep]
      have hacc' : ((acc ++ [t]).map TrueVar.column).Nodup := by
        rw [List.map_append, List.map_singleton, List.nodup_append]
        refine ⟨hacc, by simp, fun c hc d hd e => ?_⟩
        rw [List.mem_singleton] at hd
        exact hnew (hd ▸ e ▸ hc)
      obtain ⟨h1, h2, h3⟩ := ih (acc ++ [t]) hacc'
      refine ⟨h1, fun v hv => ?_, fun c => ?_⟩
      · rcases h2 v hv with h | ⟨h, ht⟩
        · rcases List.mem_append.mp h with h | h
          · exact .inl h
          · rw [List.mem_singleton] at h
            exact .inr ⟨h ▸ List.mem_cons_self, h ▸ htest⟩
        · exact .inr ⟨List.mem_cons_of_mem _ h, ht⟩
      · rw [h3 c]
        simp only [List.map_append, List.map_singleton, List.mem_append, List.mem_singleton,
          List.exists_mem_cons_iff, htest, true_and, or_assoc, eq_comm]
    · rw [if_neg hkeep]
      obtain ⟨h1, h2, h3⟩ := ih acc hacc
      refine ⟨h1, fun v hv => ?_, fun c => ?_⟩
      · rcases h2 v hv with h | ⟨h, ht⟩
        · exact .inl h
        · exact .inr ⟨List.mem_cons_of_mem _ h, ht⟩
      · rw [h3 c, List.exists_mem_cons_iff]
        constructor
        · rintro (h | h)
          · exact .inl h
          · exact .inr (.inr h)
        · rintro (h | ⟨ht, rfl⟩ | h)
          · exact .inl h
          · simp only [Bool.and_eq_true, ht, true_and, Bool.not_eq_true', Bool.not_eq_false]
              at hkeep
            exact .inl (isInListTrueVar_iff.mp hkeep)
          · exact .inr h

theorem keepNew_nodup (test : TrueVar → Bool) (l : List TrueVar) :
    ((keepNew test l).map TrueVar.column).Nodup := (keepNew_loop test l [] (by simp)).1

theorem mem_of_mem_keepNew {test : TrueVar → Bool} {l : List TrueVar} {v : TrueVar}
    (h : v ∈ keepNew test l) : v ∈ l := by
  rcases (keepNew_loop test l [] (by simp)).2.1 v h with h | h
  · simp at h
  · exact h.1

theorem mem_keepNew_column {test : TrueVar → Bool} {l : List TrueVar} {c : Oid × Nat} :
    c ∈ (keepNew test l).map TrueVar.column ↔ ∃ v ∈ l, test v = true ∧ v.column = c := by
  have h := (keepNew_loop test l [] (by simp)).2.2 c
  rw [List.map_nil] at h
  exact h.trans (or_iff_right List.not_mem_nil)

/-- `union_list` keeps exactly the columns of its argument. -/
theorem mem_unionList_column {l : List TrueVar} {c : Oid × Nat} :
    c ∈ (unionList l).map TrueVar.column ↔ c ∈ l.map TrueVar.column := by
  rw [unionList, mem_keepNew_column]
  simp

theorem countP_column (l : List TrueVar) (v : TrueVar) :
    l.countP (fun t => v.varattno == t.varattno && v.vartype == t.vartype) =
      (l.map TrueVar.column).count v.column := by
  rw [List.count, List.countP_map]
  congr 1
  funext t
  rw [Bool.eq_iff_iff]
  simp only [Bool.and_eq_true, beq_iff_eq, TrueVar.column, Function.comp, Prod.mk.injEq]
  exact ⟨fun ⟨h1, h2⟩ => ⟨h2.symm, h1.symm⟩, fun ⟨h1, h2⟩ => ⟨h2.symm, h1.symm⟩⟩

/-- `inter_list` keeps exactly the columns that occur `nbArg` times. -/
theorem mem_interList_column {l : List TrueVar} {nbArg : Nat} {c : Oid × Nat} :
    c ∈ (interList l nbArg).map TrueVar.column ↔
      c ∈ l.map TrueVar.column ∧ (l.map TrueVar.column).count c = nbArg := by
  rw [interList, mem_keepNew_column]
  constructor
  · rintro ⟨v, hv, ht, rfl⟩
    rw [countP_column, beq_iff_eq] at ht
    exact ⟨List.mem_map_of_mem hv, ht⟩
  · rintro ⟨hc, hn⟩
    obtain ⟨v, hv, rfl⟩ := List.mem_map.mp hc
    exact ⟨v, hv, by rw [countP_column, hn]; simp, rfl⟩

end Infed
