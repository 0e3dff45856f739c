import Mathlib.Data.List.Forall2
import Mathlib.Order.MinMax
import Mathlib.Order.Nat

/-! Three-valued logic: the chain `false < unknown < true` with conjunction as minimum, disjunction
as maximum, and negation as the order reversal.  Lists are folded, so that an n-ary connective is
the minimum or maximum of its arguments. -/

inductive Kleene where
  | false
  | unknown
  | true
  deriving DecidableEq, Repr

namespace Kleene

/-- The position of a truth value in the chain. -/
def rank : Kleene → Nat
  | false => 0
  | unknown => 1
  | true => 2

theorem rank_injective : Function.Injective rank := by
  intro a b h
  cases a <;> cases b <;> first | rfl | cases h

instance : LinearOrder Kleene := LinearOrder.lift' rank rank_injective

def not : Kleene → Kleene
  | false => true
  | unknown => unknown
  | true => false

def conj (ts : List Kleene) : Kleene := ts.foldr min true

def disj (ts : List Kleene) : Kleene := ts.foldr max false

def ofBool (b : Bool) : Kleene := if b then true else false

theorem le_true (a : Kleene) : a ≤ true := by cases a <;> decide

theorem false_le (a : Kleene) : false ≤ a := by cases a <;> decide

@[simp] theorem true_le_iff {a : Kleene} : true ≤ a ↔ a = true := by cases a <;> decide

theorem eq_true_of_le {a b : Kleene} (h : a ≤ b) (ha : a = true) : b = true := by
  subst ha
  exact true_le_iff.mp h

@[simp] theorem not_not (a : Kleene) : a.not.not = a := by cases a <;> rfl

@[simp] theorem not_eq_true {a : Kleene} : a.not = true ↔ a = false := by cases a <;> decide

@[simp] theorem not_eq_false {a : Kleene} : a.not = false ↔ a = true := by cases a <;> decide

theorem not_le_not {a b : Kleene} (h : a ≤ b) : b.not ≤ a.not := by
  cases a <;> cases b <;> revert h <;> decide

@[simp] theorem min_eq_true {a b : Kleene} : min a b = true ↔ a = true ∧ b = true := by
  cases a <;> cases b <;> decide

@[simp] theorem max_eq_true {a b : Kleene} : max a b = true ↔ a = true ∨ b = true := by
  cases a <;> cases b <;> decide

@[simp] theorem min_eq_false {a b : Kleene} : min a b = false ↔ a = false ∨ b = false := by
  cases a <;> cases b <;> decide

@[simp] theorem max_eq_false {a b : Kleene} : max a b = false ↔ a = false ∧ b = false := by
  cases a <;> cases b <;> decide

@[simp] theorem ofBool_eq_true {b : Bool} : ofBool b = true ↔ b = Bool.true := by
  cases b <;> decide

@[simp] theorem ofBool_eq_false {b : Bool} : ofBool b = false ↔ b = Bool.false := by
  cases b <;> decide

/-- A truth value that comes from a Boolean is false when it is not true. -/
theorem ofBool_ne_true {b : Bool} : ofBool b ≠ true ↔ ofBool b = false := by
  cases b <;> decide

theorem ofBool_mono {a b : Bool} (h : a = Bool.true → b = Bool.true) : ofBool a ≤ ofBool b := by
  cases a <;> cases b <;> simp_all [ofBool, false_le]

@[simp] theorem conj_nil : conj [] = true := rfl

@[simp] theorem conj_cons (t : Kleene) (ts : List Kleene) : conj (t :: ts) = min t (conj ts) := rfl

@[simp] theorem disj_nil : disj [] = false := rfl

@[simp] theorem disj_cons (t : Kleene) (ts : List Kleene) : disj (t :: ts) = max t (disj ts) := rfl

theorem conj_singleton (t : Kleene) : conj [t] = t := min_eq_left (le_true t)

theorem conj_append (ts us : List Kleene) : conj (ts ++ us) = min (conj ts) (conj us) := by
  induction ts with
  | nil => exact (min_eq_right (le_true _)).symm
  | cons t ts ih => simp [ih, min_assoc]

theorem conj_eq_true_iff {ts : List Kleene} : conj ts = true ↔ ∀ t ∈ ts, t = true := by
  induction ts with
  | nil => simp
  | cons t ts ih => simp [ih]

theorem conj_eq_false_iff {ts : List Kleene} : conj ts = false ↔ ∃ t ∈ ts, t = false := by
  induction ts with
  | nil => simp
  | cons t ts ih => rw [conj_cons, min_eq_false, ih, List.exists_mem_cons_iff]

theorem disj_eq_true_iff {ts : List Kleene} : disj ts = true ↔ ∃ t ∈ ts, t = true := by
  induction ts with
  | nil => simp
  | cons t ts ih => simp only [disj_cons, max_eq_true, ih, List.exists_mem_cons_iff]

theorem disj_eq_false_iff {ts : List Kleene} : disj ts = false ↔ ∀ t ∈ ts, t = false := by
  induction ts with
  | nil => simp
  | cons t ts ih => simp [ih]

/-- Conjunctions and disjunctions depend on which values they have, not on how often. -/
theorem conj_congr {ts us : List Kleene} (h : ∀ t, t ∈ us ↔ t ∈ ts) : conj us = conj ts := by
  have htrue : conj us = true ↔ conj ts = true := by
    simp only [conj_eq_true_iff, h]
  have hfalse : conj us = false ↔ conj ts = false := by
    simp only [conj_eq_false_iff, h]
  revert htrue hfalse
  cases conj us <;> cases conj ts <;> simp

theorem disj_congr {ts us : List Kleene} (h : ∀ t, t ∈ us ↔ t ∈ ts) : disj us = disj ts := by
  have htrue : disj us = true ↔ disj ts = true := by
    simp only [disj_eq_true_iff, h]
  have hfalse : disj us = false ↔ disj ts = false := by
    simp only [disj_eq_false_iff, h]
  revert htrue hfalse
  cases disj us <;> cases disj ts <;> simp

theorem conj_mono {ts us : List Kleene} (h : List.Forall₂ (· ≤ ·) ts us) : conj ts ≤ conj us := by
  induction h with
  | nil => exact le_refl _
  | cons h _ ih => exact min_le_min h ih

theorem disj_mono {ts us : List Kleene} (h : List.Forall₂ (· ≤ ·) ts us) : disj ts ≤ disj us := by
  induction h with
  | nil => exact le_refl _
  | cons h _ ih => exact max_le_max h ih

/-- A disjunction is at least each of its disjuncts. -/
theorem le_disj {ts : List Kleene} {t : Kleene} (h : t ∈ ts) : t ≤ disj ts := by
  induction ts with
  | nil => simp at h
  | cons u ts ih =>
    rcases List.mem_cons.mp h with rfl | h
    · exact le_max_left _ _
    · exact le_trans (ih h) (le_max_right _ _)

/-- A conjunction of two-valued conditions is two-valued. -/
theorem conj_ne_unknown {ts : List Kleene} (h : ∀ t ∈ ts, t ≠ unknown) : conj ts ≠ unknown := by
  induction ts with
  | nil => decide
  | cons t ts ih =>
    rw [List.forall_mem_cons] at h
    have hrest := ih h.2
    rw [conj_cons]
    rcases min_choice t (conj ts) with hmin | hmin
    · rw [hmin]
      exact h.1
    · rw [hmin]
      exact hrest

/-- Two-valued conditions that are true together are equal. -/
theorem eq_of_eq_true_iff {a b : Kleene} (ha : a ≠ unknown) (hb : b ≠ unknown)
    (h : a = true ↔ b = true) : a = b := by
  cases a <;> cases b <;> simp_all

/-! ### Approximation at a polarity -/

/-- The value `x` stands for `y` at polarity `p`, as far as the truth value `s` goes: where `p` is
`s`, `x` has it only if `y` does, and otherwise `x` has it whenever `y` does. -/
def Carries (p s : Bool) (x y : Kleene) : Prop :=
  if p = s then x = ofBool s → y = ofBool s else y = ofBool s → x = ofBool s

namespace Carries

variable {p s : Bool} {x y : Kleene}

theorem refl (p s : Bool) (x : Kleene) : Carries p s x x := by
  unfold Carries
  split <;> exact id

theorem not (h : Carries (!p) (!s) x y) : Carries p s x.not y.not := by
  cases p <;> cases s <;> simpa [Carries, ofBool] using h

theorem conj {xs ys : List Kleene} (h : List.Forall₂ (Carries p s) xs ys) :
    Carries p s (Kleene.conj xs) (Kleene.conj ys) := by
  induction h with
  | nil => exact .refl p s _
  | cons h _ ih =>
    -- a conjunction is true if both sides are, and false if one is
    cases p <;> cases s <;> simp [Carries, ofBool] at h ih ⊢
    · exact Or.imp h ih
    · exact fun hy hys => ⟨h hy, ih hys⟩
    · exact Or.imp h ih
    · exact fun hx hxs => ⟨h hx, ih hxs⟩

theorem disj {xs ys : List Kleene} (h : List.Forall₂ (Carries p s) xs ys) :
    Carries p s (Kleene.disj xs) (Kleene.disj ys) := by
  induction h with
  | nil => exact .refl p s _
  | cons h _ ih =>
    cases p <;> cases s <;> simp [Carries, ofBool] at h ih ⊢
    · exact fun hx hxs => ⟨h hx, ih hxs⟩
    · exact Or.imp h ih
    · exact fun hy hys => ⟨h hy, ih hys⟩
    · exact Or.imp h ih

/-- For two-valued conditions, truth is all there is to carry. -/
theorem twoValued {a b : Bool} (h : Carries p Bool.true (ofBool a) (ofBool b)) (s : Bool) :
    Carries p s (ofBool a) (ofBool b) := by
  cases p <;> cases s <;> cases a <;> cases b <;>
    simp [Carries, ofBool] at h ⊢

end Carries

end Kleene
