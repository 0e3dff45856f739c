import Infed.Codd.Pass
import Infed.Run
import Infed.Translate
import Mathlib.Data.Multiset.Basic

/-! The Codd rewriting never adds rows.  Whatever the flags and the not-null lists hold, the
rewriting of a condition is below it in the order false < unknown < true where it counts positively,
and above it where it counts negatively. -/

namespace Infed.Codd

variable {α : Type} {cat : Catalog}

/-- In every database and for all rows, the first condition is at most as true as the second. -/
def Below (a b : Node α) : Prop :=
  ∀ (I : Interp α) (D : Database α) (ρ : Env α), evalCond I D a ρ ≤ evalCond I D b ρ

namespace Below

variable {a b : Node α}

theorem refl (a : Node α) : Below a a := fun _ _ _ => le_refl _

theorem not (h : Below a b) : Below (.boolExpr .notExpr [b]) (.boolExpr .notExpr [a]) := by
  intro I D ρ
  rw [evalCond_not, evalCond_not]
  exact Kleene.not_le_not (h I D ρ)

theorem boolExpr {boolop : BoolExprType} (hop : boolop ≠ .notExpr) {as bs : List (Node α)}
    (h : List.Forall₂ Below as bs) : Below (.boolExpr boolop as) (.boolExpr boolop bs) := by
  intro I D ρ
  have hlist : List.Forall₂ (· ≤ ·) (evalConds I D as ρ) (evalConds I D bs ρ) := by
    rw [evalConds_eq_map, evalConds_eq_map, List.forall₂_map_left_iff, List.forall₂_map_right_iff]
    exact h.imp fun _ _ hab => hab I D ρ
  cases boolop with
  | notExpr => exact absurd rfl hop
  | andExpr => exact Kleene.conj_mono hlist
  | orExpr => exact Kleene.disj_mono hlist

/-- A WHERE that is true on fewer combinations of rows gives a sub-list of the rows. -/
theorem evalQuery (h : Below a b) (targetList : List (Node α)) (relids : List Oid) (I : Interp α)
    (D : Database α) (ρ : Env α) :
    (evalQuery I D (selectFrom targetList relids a) ρ).Sublist
      (evalQuery I D (selectFrom targetList relids b) ρ) := by
  simp only [selectFrom, Infed.evalQuery]
  refine List.Sublist.map _ (List.monotone_filter_right _ fun z hz => ?_)
  rw [decide_eq_true_eq] at hz ⊢
  exact Kleene.eq_true_of_le (h I D (ρ.push z)) hz

theorem existsFrom (h : Below a b) (targetList : List (Node α)) (relids : List Oid) :
    Below (existsFrom targetList relids a) (existsFrom targetList relids b) := by
  intro I D ρ
  refine Kleene.ofBool_mono fun hne => ?_
  simp only [Bool.not_eq_true', List.isEmpty_eq_false_iff] at hne ⊢
  exact fun hnil => hne (List.sublist_nil.mp (hnil ▸ h.evalQuery targetList relids I D ρ))

/-- A disjunction is at least each of its arguments, whatever the others are. -/
theorem or {args : List (Node α)} (ha : a ∈ args) : Below a (.boolExpr .orExpr args) := by
  intro I D ρ
  rw [evalCond, evalConds_eq_map]
  exact Kleene.le_disj (List.mem_map_of_mem ha)

end Below

/-- The rewriting `out` of `a` is below it at positive polarity and above it at negative. -/
def Ordered (positive : Bool) (a out : Node α) : Prop :=
  if positive then Below out a else Below a out

namespace Ordered

theorem refl (positive : Bool) (a : Node α) : Ordered positive a a := by
  cases positive <;> exact Below.refl a

theorem boolExpr {positive : Bool} {boolop : BoolExprType} (hop : boolop ≠ .notExpr)
    {args outs : List (Node α)} (h : List.Forall₂ (Ordered positive) args outs) :
    Ordered positive (.boolExpr boolop args) (.boolExpr boolop outs) := by
  cases positive with
  | true => exact Below.boolExpr hop (List.Forall₂.flip h)
  | false => exact Below.boolExpr hop h

theorem not {positive : Bool} {a out : Node α} (h : Ordered (!positive) a out) :
    Ordered positive (.boolExpr .notExpr [a]) (.boolExpr .notExpr [out]) := by
  cases positive with
  | true => exact Below.not h
  | false => exact Below.not h

theorem existsFrom {positive : Bool} {a out : Node α} (h : Ordered positive a out)
    (targetList : List (Node α)) (relids : List Oid) :
    Ordered positive (existsFrom targetList relids a) (existsFrom targetList relids out) := by
  cases positive with
  | true => exact Below.existsFrom h targetList relids
  | false => exact Below.existsFrom h targetList relids

end Ordered

/-- An atom is copied, or, at negative polarity, joined by OR to checks. -/
theorem mutates_atom {os : Scopes} {a : Node α} (ha : Atom cat os a) :
    pass.Mutates (fun _ _ => True) (fun _ => True) (fun _ => True)
      (fun p _ a out => Ordered p a out)
      cat os a := by
  intro c rte hs _ _ _
  cases ha with
  | @comparison opno args hargs =>
    simp only [queryScopes, boolCount, List.length_nil]
    rw [pass.myMutator_opExpr rfl hargs hs]
    split
    · exact ⟨_, _, _, rfl, trivial, Ordered.refl _ _⟩
    · cases c.positive with
      | true => exact ⟨_, _, _, rfl, trivial, Ordered.refl _ _⟩
      | false => exact ⟨_, _, _, rfl, trivial, Below.or (by simp)⟩
  | nullTest harg =>
    simp only [queryScopes, boolCount, List.length_nil]
    rw [pass.myMutator_nullTest harg hs]
    exact ⟨_, _, _, rfl, trivial, Ordered.refl _ _⟩

theorem mutates_ordered {os : Scopes} {a : Node α} (h : Cond (Atom cat) True os a) :
    pass.Mutates (fun _ _ => True) (fun _ => True) (fun _ => True)
      (fun p _ a out => Ordered p a out)
      cat os a :=
  Pass.mutates_cond (fun _ _ _ _ => trivial) (fun _ _ => mutates_atom)
    (fun p _ => Ordered.refl p _) (fun _ _ _ _ _ _ hop _ houts => Ordered.boolExpr hop houts)
    (fun _ _ _ _ hout => Ordered.not hout)
    (fun _ _ targetList relids _ _ hout => Ordered.existsFrom hout targetList relids) h

/-- The rewriting follows the order at both polarities, in every context; and the rows of a query
after a run of the walker and the mutator are among its rows before, with their multiplicities. -/
theorem myMutator_ordered (α : Type) (cat : Catalog) :
    (∀ (os : Scopes) (H : Node α) (c : ContextModifier α) (rte : Nat),
      Cond (Atom cat) True os H → c.currentTrueVar.Resolves cat os →
      AtPart (fun _ => True) (queryScopes cat H c.currentTrueVar rte) (boolCount H) c →
      ∃ H' c', myMutator H c = some (H', c') ∧ Ordered c.positive H H') ∧
    ∀ (targetList : List (Node α)) (relids : List Oid) (quals : Node α),
      Cond (Atom cat) True [relids] quals →
      ∃ w c q' c',
        myWalker cat (selectFrom targetList relids quals) makeContextWalkerSetConstraint = some w ∧
        makeContextModifier true w = some c ∧
        myMutator (selectFrom targetList relids quals) c = some (q', c') ∧
        ∀ (I : Interp α) (D : Database α) (ρ : Env α), (evalQuery I D q' ρ : Multiset (Row α)) ≤
          evalQuery I D (selectFrom targetList relids quals) ρ := by
  constructor
  · intro os H c rte h hs hat
    obtain ⟨out, r, ks, hrun, _, hout⟩ := mutates_ordered h c rte hs hat trivial trivial
    exact ⟨out, _, hrun, hout⟩
  · intro targetList relids quals h
    obtain ⟨w, hwalk, hmake⟩ := pass.prepares targetList h
    obtain ⟨c, hc, prep⟩ := hmake true
    obtain ⟨queries, hb, hl, _, _⟩ := prep.atStart
    have hat : AtPart (fun _ => True) (queryScopes cat (selectFrom targetList relids quals) .root 0)
        (boolCount quals) c :=
      ⟨queries, by simpa [selectFrom, boolCount] using hb, hl, fun _ _ => trivial,
        fun _ _ => trivial⟩
    obtain ⟨out, r, ks, hrun, _, hout⟩ := Pass.myMutator_selectFrom (mutates_ordered h)
      (Scope.resolves_root cat) hat trivial trivial
    rw [prep.positive] at hout
    exact ⟨w, c, _, _, hwalk, hc, hrun, fun I D ρ =>
      (Below.evalQuery hout targetList relids I D ρ).subperm⟩

/-- `NOT (r.a < 1 OR r.a IS NULL)`. -/
def notLess : Node Int :=
  .boolExpr .notExpr [.boolExpr .orExpr [.opExpr 97 [.var ⟨1, 1, 0⟩, .const (some 1)],
    .nullTest .isNull (.var ⟨1, 1, 0⟩)]]

theorem notLess_cond : Cond (Atom (Catalog.nullable 1)) True [[1]] notLess := by
  have hcol : Operand (α := Int) (Catalog.nullable 1) [[1]] (.var ⟨1, 1, 0⟩) :=
    .column ⟨1, rfl, by decide, by decide⟩
  refine .not (.inl trivial) (.or (by simp) ?_)
  simp only [List.forall_mem_cons, List.not_mem_nil, false_imp_iff, implies_true, and_true]
  refine ⟨.leaf (.comparison ?_), .leaf (.nullTest hcol)⟩
  simp only [List.forall_mem_cons, List.not_mem_nil, false_imp_iff, implies_true, and_true]
  exact ⟨hcol, .constant⟩

/-- For the condition `NOT (r.a < 1 OR r.a IS NULL)`, and for the query over `r` with it. -/
theorem myMutator_ordered_notLess :
    (∃ H' c',
      myMutator notLess ⟨true, false, [], [], Scope.root.enter (Catalog.nullable 1) 0 [1], [],
        [[]], [[]], 0, 0⟩ = some (H', c') ∧
      Ordered true notLess H') ∧
    ∃ w c q' c',
      myWalker (Catalog.nullable 1) (selectFrom [] [1] notLess) makeContextWalkerSetConstraint =
        some w ∧
      makeContextModifier true w = some c ∧
      myMutator (selectFrom [] [1] notLess) c = some (q', c') ∧
      ∀ (I : Interp Int) (D : Database Int) (ρ : Env Int),
        (evalQuery I D q' ρ : Multiset (Row Int)) ≤ evalQuery I D (selectFrom [] [1] notLess) ρ :=
  ⟨(myMutator_ordered Int (Catalog.nullable 1)).1 [[1]] notLess _ 1 notLess_cond
      ((Scope.resolves_root _).enter 0 [1])
      ⟨⟨[], rfl⟩, by decide, rfl, fun _ _ => trivial, fun _ _ => trivial⟩,
    (myMutator_ordered Int (Catalog.nullable 1)).2 [] [1] notLess notLess_cond⟩

end Infed.Codd
