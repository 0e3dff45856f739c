import Infed.Combinations
import Mathlib.Algebra.Group.Nat.Defs
import Mathlib.Data.List.Perm.Basic

/-! Multiplicities of rows.  With every row of the database twice, conditions have the truth values
that they had, for EXISTS, IN and scalar sub-selects ask for a first row of some kind; and a query
over `k` tables returns `2 ^ k` times as many rows. -/

namespace Infed

variable {α β γ : Type}

/-! ### Lists with the same first elements -/

theorem findSome?_filter (p : γ → Bool) (g : γ → Option β) (l : List γ) :
    (l.filter p).findSome? g = l.findSome? fun x => if p x then g x else none := by
  induction l with
  | nil => rfl
  | cons x l ih => cases hp : p x <;> simp [List.findSome?_cons, hp, ih]

theorem findSome?_flatMap {δ : Type} (f : γ → List β) (g : β → Option δ) (l : List γ) :
    (l.flatMap f).findSome? g = l.findSome? fun x => (f x).findSome? g := by
  induction l with
  | nil => rfl
  | cons x l ih =>
    rw [List.flatMap_cons, List.findSome?_append, ih, List.findSome?_cons]
    cases (f x).findSome? g <;> rfl

/-- Whatever is looked for, both lists have the same first element of that kind. -/
def SameFirsts (l l' : List γ) : Prop :=
  ∀ (β : Type) (g : γ → Option β), l'.findSome? g = l.findSome? g

namespace SameFirsts

variable {l l' : List γ}

theorem refl (l : List γ) : SameFirsts l l := fun _ _ => rfl

theorem double (l : List γ) : SameFirsts l (l ++ l) := by
  intro β g
  rw [List.findSome?_append]
  cases l.findSome? g <;> rfl

theorem map (h : SameFirsts l l') (f : γ → β) : SameFirsts (l.map f) (l'.map f) := by
  intro δ g
  rw [List.findSome?_map, List.findSome?_map, h]

theorem filter (h : SameFirsts l l') (p : γ → Bool) :
    SameFirsts (l.filter p) (l'.filter p) := by
  intro δ g
  rw [findSome?_filter, findSome?_filter, h]

theorem flatMap (h : SameFirsts l l') {f f' : γ → List β} (hf : ∀ x, SameFirsts (f x) (f' x)) :
    SameFirsts (l.flatMap f) (l'.flatMap f') := by
  intro δ g
  rw [findSome?_flatMap, findSome?_flatMap, h]
  exact congrArg (l.findSome? ·) (funext fun x => hf x δ g)

theorem head? (h : SameFirsts l l') : l'.head? = l.head? := by
  have hhead : ∀ l : List γ, l.findSome? some = l.head? := by
    intro l
    cases l <;> rfl
  rw [← hhead, ← hhead, h]

theorem headD (h : SameFirsts l l') (x : γ) : l'.headD x = l.headD x := by
  rw [List.headD_eq_head?_getD, List.headD_eq_head?_getD, h.head?]

theorem isEmpty (h : SameFirsts l l') : l'.isEmpty = l.isEmpty := by
  have hhead := h.head?
  cases l <;> cases l' <;> simp_all

theorem mem_iff (h : SameFirsts l l') (x : γ) : x ∈ l' ↔ x ∈ l := by
  classical
  have hfind : ∀ l : List γ,
      x ∈ l ↔ l.findSome? (fun y => if y = x then some () else none) ≠ none := by
    intro l
    simp [List.findSome?_eq_none_iff]
  rw [hfind, hfind, h]

end SameFirsts

/-! ### Every row twice -/

def Database.double (D : Database α) : Database α := fun relid => D relid ++ D relid

theorem sameFirsts_combinations {tables tables' : List (List (Row α))}
    (h : List.Forall₂ SameFirsts tables tables') (fromlist : List Nat) :
    SameFirsts (combinations tables fromlist) (combinations tables' fromlist) := by
  induction fromlist with
  | nil => exact .refl _
  | cons i fromlist ih =>
    rw [combinations_cons, combinations_cons]
    exact ih.flatMap fun z => (forall₂_getD h (.refl []) (i - 1)).map _

section

variable (I : Interp α) (D : Database α)

mutual

theorem evalScalar_double : ∀ (a : Node α) (ρ : Env α),
    evalScalar I D.double a ρ = evalScalar I D a ρ
  | .opExpr _ args, ρ => by rw [evalScalar, evalScalar, evalScalars_double args ρ]
  | .targetEntry expr _, ρ => by rw [evalScalar, evalScalar, evalScalar_double expr ρ]
  | .subLink .exprSublink _ q, ρ => by
    rw [evalScalar, evalScalar, (evalQuery_double q ρ).headD]
  | .subLink .existsSublink _ _, _ | .subLink .anySublink _ _, _ | .subLink .allSublink _ _, _
  | .null, _ | .var _, _ | .const _, _ | .param _, _ | .boolExpr _ _, _ | .nullTest _ _, _
  | .query _ _ _ _, _ | .rangeTblEntry _ _ _, _ | .list _, _ => rfl

theorem evalScalars_double : ∀ (nodes : List (Node α)) (ρ : Env α),
    evalScalars I D.double nodes ρ = evalScalars I D nodes ρ
  | [], _ => rfl
  | node :: nodes, ρ => by
    rw [evalScalars, evalScalars, evalScalar_double node ρ, evalScalars_double nodes ρ]

/-- Conditions do not see multiplicities. -/
theorem evalCond_double : ∀ (a : Node α) (ρ : Env α), evalCond I D.double a ρ = evalCond I D a ρ
  | .opExpr _ args, ρ => by rw [evalCond, evalCond, evalScalars_double args ρ]
  | .boolExpr .andExpr args, ρ | .boolExpr .orExpr args, ρ | .boolExpr .notExpr args, ρ
  | .list args, ρ => by rw [evalCond, evalCond, evalConds_double args ρ]
  | .nullTest .isNull arg, ρ | .nullTest .isNotNull arg, ρ => by
    rw [evalCond, evalCond, evalScalar_double arg ρ]
  | .subLink .existsSublink _ q, ρ => by rw [evalCond, evalCond, (evalQuery_double q ρ).isEmpty]
  | .subLink .anySublink test q, ρ => by
    rw [evalCond, evalCond]
    simp only [evalCond_double test]
    exact Kleene.disj_congr ((evalQuery_double q ρ).map _).mem_iff
  | .subLink .allSublink test q, ρ => by
    rw [evalCond, evalCond]
    simp only [evalCond_double test]
    exact Kleene.conj_congr ((evalQuery_double q ρ).map _).mem_iff
  | .subLink .exprSublink _ _, _ | .null, _ | .var _, _ | .const _, _ | .param _, _
  | .query _ _ _ _, _ | .rangeTblEntry _ _ _, _ | .targetEntry _ _, _ => rfl

theorem evalConds_double : ∀ (nodes : List (Node α)) (ρ : Env α),
    evalConds I D.double nodes ρ = evalConds I D nodes ρ
  | [], _ => rfl
  | node :: nodes, ρ => by
    rw [evalConds, evalConds, evalCond_double node ρ, evalConds_double nodes ρ]

theorem evalQuery_double : ∀ (q : Node α) (ρ : Env α),
    SameFirsts (evalQuery I D q ρ) (evalQuery I D.double q ρ)
  | .query targetList rtable fromlist quals, ρ => by
    rw [evalQuery, evalQuery]
    simp only [evalCond_double quals, evalScalars_double targetList]
    exact ((sameFirsts_combinations (evalRtable_double rtable _) fromlist).filter _).map _
  | .null, _ | .var _, _ | .const _, _ | .param _, _ | .opExpr _ _, _ | .boolExpr _ _, _
  | .nullTest _ _, _ | .subLink _ _ _, _ | .rangeTblEntry _ _ _, _ | .targetEntry _ _, _
  | .list _, _ => .refl _

theorem evalRte_double : ∀ (rte : Node α) (ρ : Env α),
    SameFirsts (evalRte I D rte ρ) (evalRte I D.double rte ρ)
  | .rangeTblEntry .rteRelation relid _, _ => .double (D relid)
  | .rangeTblEntry .rteSubquery _ q, ρ => evalQuery_double q ρ
  | .null, _ | .var _, _ | .const _, _ | .param _, _ | .opExpr _ _, _ | .boolExpr _ _, _
  | .nullTest _ _, _ | .subLink _ _ _, _ | .query _ _ _ _, _ | .targetEntry _ _, _
  | .list _, _ => .refl _

theorem evalRtable_double : ∀ (nodes : List (Node α)) (ρ : Env α),
    List.Forall₂ SameFirsts (evalRtable I D nodes ρ) (evalRtable I D.double nodes ρ)
  | [], _ => .nil
  | node :: nodes, ρ => .cons (evalRte_double node ρ) (evalRtable_double nodes ρ)

end

end

/-! ### How many rows -/

/-- The list `k` times. -/
def copies (k : Nat) (l : List γ) : List γ := (List.replicate k l).flatten

theorem copies_succ (k : Nat) (l : List γ) : copies (k + 1) l = l ++ copies k l := by
  rw [copies, List.replicate_succ, List.flatten_cons, copies]

theorem length_copies (k : Nat) (l : List γ) : (copies k l).length = k * l.length := by
  simp [copies]

theorem flatMap_copies (k : Nat) (l : List γ) (f : γ → List β) :
    (copies k l).flatMap f = copies k (l.flatMap f) := by
  induction k with
  | zero => rfl
  | succ k ih => rw [copies_succ, List.flatMap_append, ih, copies_succ]

theorem filter_copies (k : Nat) (l : List γ) (p : γ → Bool) :
    (copies k l).filter p = copies k (l.filter p) := by
  induction k with
  | zero => rfl
  | succ k ih => rw [copies_succ, List.filter_append, ih, copies_succ]

theorem map_copies (k : Nat) (l : List γ) (f : γ → β) :
    (copies k l).map f = copies k (l.map f) := by
  rw [List.map_eq_flatMap, List.map_eq_flatMap, flatMap_copies]

theorem copies_nil (k : Nat) : copies k ([] : List γ) = [] := by
  simp [copies]

theorem copies_append_left (k m : Nat) (l : List γ) :
    copies (k + m) l = copies k l ++ copies m l := by
  rw [copies, copies, copies, ← List.flatten_append, List.replicate_append_replicate]

theorem copies_copies (k m : Nat) (l : List γ) : copies k (copies m l) = copies (m * k) l := by
  induction k with
  | zero => rfl
  | succ k ih => rw [copies_succ, ih, Nat.mul_succ, Nat.add_comm, copies_append_left]

theorem copies_append_perm (k : Nat) (l l' : List γ) :
    (copies k (l ++ l')).Perm (copies k l ++ copies k l') := by
  induction k with
  | zero => exact .refl _
  | succ k ih =>
    rw [copies_succ, copies_succ, copies_succ, List.append_assoc, List.append_assoc]
    refine .append_left l ?_
    refine (List.Perm.append_left l' ih).trans ?_
    rw [← List.append_assoc, ← List.append_assoc]
    exact List.perm_append_comm.append_right _

theorem copies_perm {l l' : List γ} (h : l.Perm l') (k : Nat) :
    (copies k l).Perm (copies k l') := by
  induction k with
  | zero => exact .refl _
  | succ k ih =>
    rw [copies_succ, copies_succ]
    exact h.append ih

theorem flatMap_copies_perm (k : Nat) (l : List γ) (f : γ → List β) :
    (l.flatMap fun x => copies k (f x)).Perm (copies k (l.flatMap f)) := by
  induction l with
  | nil => rw [List.flatMap_nil, List.flatMap_nil, copies_nil]
  | cons x l ih =>
    rw [List.flatMap_cons, List.flatMap_cons]
    exact (ih.append_left _).trans (copies_append_perm _ _ _).symm

/-- The weight of the FROM references, from those of the range table entries. -/
def total (ws : List Nat) : List Nat → Nat
  | [] => 0
  | i :: fromlist => ws.getD (i - 1) 0 + total ws fromlist

mutual

/-- How many times a query or a FROM entry takes a row of a table. -/
def weight : Node α → Nat
  | .query _ rtable fromlist _ => total (weights rtable) fromlist
  | .rangeTblEntry .rteRelation _ _ => 1
  | .rangeTblEntry .rteSubquery _ subquery => weight subquery
  | _ => 0

def weights : List (Node α) → List Nat
  | [] => []
  | node :: nodes => weight node :: weights nodes

end

theorem weights_eq_map (nodes : List (Node α)) : weights nodes = nodes.map weight := by
  induction nodes with
  | nil => rfl
  | cons node nodes ih => rw [weights, ih, List.map_cons]

/-- The second list has the elements of the first one `2 ^ w` times. -/
abbrev Weighs (w : Nat) (l l' : List γ) : Prop := l'.Perm (copies (2 ^ w) l)

theorem combinations_double {ws : List Nat} {tables tables' : List (List (Row α))}
    (h : ∀ i, Weighs (ws.getD i 0) (tables.getD i []) (tables'.getD i [])) (fromlist : List Nat) :
    Weighs (total ws fromlist) (combinations tables fromlist) (combinations tables' fromlist) := by
  induction fromlist with
  | nil => exact .refl _
  | cons i fromlist ih =>
    rw [combinations_cons, combinations_cons]
    have hrows : ∀ z : List (Nat × Row α), Weighs (ws.getD (i - 1) 0)
        ((tables.getD (i - 1) []).map fun r => (i, r) :: z)
        ((tables'.getD (i - 1) []).map fun r => (i, r) :: z) := by
      intro z
      rw [Weighs, ← map_copies]
      exact (h (i - 1)).map _
    refine (ih.flatMap fun z _ => hrows z).trans ?_
    rw [flatMap_copies, total, Nat.pow_add, ← copies_copies]
    exact copies_perm (flatMap_copies_perm _ _ _) _

section

variable (I : Interp α) (D : Database α)

mutual

/-- With every row twice, a query returns its rows `2 ^ weight` times. -/
theorem evalQuery_weighs : ∀ (q : Node α) (ρ : Env α),
    Weighs (weight q) (evalQuery I D q ρ) (evalQuery I D.double q ρ)
  | .query targetList rtable fromlist quals, ρ => by
    rw [Weighs, evalQuery, evalQuery, weight, ← map_copies, ← filter_copies]
    simp only [evalCond_double, evalScalars_double]
    exact ((combinations_double (evalRtable_weighs rtable _) fromlist).filter _).map _
  | .null, _ | .var _, _ | .const _, _ | .param _, _ | .opExpr _ _, _ | .boolExpr _ _, _
  | .nullTest _ _, _ | .subLink _ _ _, _ | .rangeTblEntry _ _ _, _ | .targetEntry _ _, _
  | .list _, _ => by
    simp only [Weighs, evalQuery, copies_nil]
    exact .refl _

theorem evalRte_weighs : ∀ (rte : Node α) (ρ : Env α),
    Weighs (weight rte) (evalRte I D rte ρ) (evalRte I D.double rte ρ)
  | .rangeTblEntry .rteRelation relid _, _ => by
    simp only [Weighs, evalRte, Database.double, weight, copies, Nat.pow_one, List.replicate,
      List.flatten_cons, List.flatten_nil, List.append_nil]
    exact .refl _
  | .rangeTblEntry .rteSubquery _ q, ρ => evalQuery_weighs q ρ
  | .null, _ | .var _, _ | .const _, _ | .param _, _ | .opExpr _ _, _ | .boolExpr _ _, _
  | .nullTest _ _, _ | .subLink _ _ _, _ | .query _ _ _ _, _ | .targetEntry _ _, _
  | .list _, _ => by
    simp only [Weighs, evalRte, copies_nil]
    exact .refl _

theorem evalRtable_weighs : ∀ (nodes : List (Node α)) (ρ : Env α) (i : Nat),
    Weighs ((weights nodes).getD i 0) ((evalRtable I D nodes ρ).getD i [])
      ((evalRtable I D.double nodes ρ).getD i [])
  | [], _, _ => .refl _
  | node :: _, ρ, 0 => evalRte_weighs node ρ
  | _ :: nodes, ρ, i + 1 => evalRtable_weighs nodes ρ i

end

end

theorem length_evalQuery_double (q : Node α) (I : Interp α) (D : Database α) (ρ : Env α) :
    (evalQuery I D.double q ρ).length = 2 ^ weight q * (evalQuery I D q ρ).length := by
  rw [(evalQuery_weighs I D q ρ).length_eq, length_copies]

/-- Queries that return the same bag of rows take rows equally often, if they return any. -/
theorem weight_eq_of_perm {I : Interp α} {q q' : Node α}
    (h : ∀ D ρ, (evalQuery I D q' ρ).Perm (evalQuery I D q ρ)) {D : Database α} {ρ : Env α}
    (hrow : evalQuery I D q ρ ≠ []) : weight q' = weight q := by
  have hpos := List.length_pos_iff.mpr hrow
  have hdouble := (h D.double ρ).length_eq
  rw [length_evalQuery_double, length_evalQuery_double, (h D ρ).length_eq] at hdouble
  exact Nat.pow_right_injective le_rfl (Nat.eq_of_mul_eq_mul_right hpos hdouble)

/-! ### Fewer tables -/

theorem total_map_add_one (w : Nat) (ws fromlist : List Nat) :
    total (w :: ws) (fromlist.map fun i => i + 2) = total ws (fromlist.map (· + 1)) := by
  induction fromlist with
  | nil => rfl
  | cons i fromlist ih =>
    rw [List.map_cons, List.map_cons, total, total, ih]
    rfl

/-- All entries in FROM. -/
def totalAll (ws : List Nat) : Nat := total ws (List.range' 1 ws.length)

theorem totalAll_cons (w : Nat) (ws : List Nat) : totalAll (w :: ws) = w + totalAll ws := by
  have hone : List.range' 1 ws.length = (List.range ws.length).map (· + 1) := by
    rw [List.range'_eq_map_range]
    exact List.map_congr_left fun _ _ => Nat.add_comm _ _
  have htwo : List.range' 2 ws.length = (List.range ws.length).map (· + 2) := by
    rw [List.range'_eq_map_range]
    exact List.map_congr_left fun _ _ => Nat.add_comm _ _
  rw [totalAll, totalAll, List.length_cons, List.range'_succ, total, hone, htwo,
    total_map_add_one]
  rfl

theorem totalAll_sublist {ws ws' : List Nat} (h : ws'.Sublist ws) : totalAll ws' ≤ totalAll ws := by
  induction h with
  | slnil => exact le_rfl
  | cons w _ ih =>
    rw [totalAll_cons]
    omega
  | cons_cons w _ ih =>
    rw [totalAll_cons, totalAll_cons]
    omega

theorem totalAll_lt {ws ws' : List Nat} (h : ws'.Sublist ws) (hlength : ws'.length < ws.length)
    (hpos : ∀ w ∈ ws, 0 < w) : totalAll ws' < totalAll ws := by
  induction h with
  | slnil => exact absurd hlength (Nat.lt_irrefl _)
  | cons w hsub _ =>
    have hw := hpos w List.mem_cons_self
    have hle := totalAll_sublist hsub
    rw [totalAll_cons]
    omega
  | cons_cons w _ ih =>
    have hlt := ih (by simpa using hlength) fun x hx => hpos x (List.mem_cons_of_mem _ hx)
    rw [totalAll_cons, totalAll_cons]
    omega

end Infed
