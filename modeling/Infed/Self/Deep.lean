import Infed.Levels

/-! `optimize_self_constraint_deep`: the pass on a query and on every sub-select in it, those inside
first.  A sub-select keeps its rows, so that the conditions around it keep their meaning. -/

namespace Infed.Self

variable {α : Type} {cat : Catalog} {rules : Rules} {l : Level}

/-- One call of `mutator_deep`. -/
def mutatorDeep : Mutator α Unit
  | .null, _, context => some (.null, context)
  | .query _ _ _ _, traverse, context => do
    let (q, context) ← traverse context
    let q ← optimizeSelfConstraint q
    some (q, context)
  | _, traverse, context => traverse context

def optimizeSelfConstraintDeep (q : Node α) : Option (Node α) := do
  let (q, _) ← mutate mutatorDeep q ()
  some q

theorem optimizeSelfConstraintDeep_eq {q q' : Node α}
    (h : mutate mutatorDeep q () = some (q', ())) : optimizeSelfConstraintDeep q = some q' := by
  simp [optimizeSelfConstraintDeep, h]

/-! ### Conditions without sub-selects -/

theorem atQueries_mutatorDeep : AtQueries (mutatorDeep (α := α)) := by
  intro node traverse hnull hquery
  cases node with
  | null => exact absurd rfl hnull
  | query => exact absurd rfl (hquery _ _ _ _)
  | _ => rfl

/-! ### Every depth -/

/-- Without the conditions that `my_modifier_self` takes out, the atoms `A` are among `A'`. -/
def Strips (A A' : Atoms α) : Prop :=
  ∀ l a, A l a → Piece l a ∧ (takes a = false → A' l a)

/-- What `mutator_deep` makes of the condition `a`.  The query around it then moves constraints out
of `a'`. -/
structure Deepens (cat : Catalog) (rules : Rules) (P A B : Atoms α) (l : Level) (a a' : Node α) :
    Prop where
  run : mutate mutatorDeep a () = some (a', ())
  parts : Parts l.size a'
  nested : Nested cat rules P A B l (strip none a')
  links : directLinks (strip none a') = directLinks a
  value : ∀ I D, Conforms cat D → ∀ ρ, evalCond I D a' ρ = evalCond I D a ρ

section

variable {P A B P' A' B' : Atoms α}

theorem deepens_atom (hA : Strips A A') {a : Node α} (h : A l a) :
    Deepens cat rules P' A' B' l a a := by
  obtain ⟨⟨hclause, htable⟩, hstays⟩ := hA l a h
  have hstrip := hclause.strip_eq
  cases htakes : takes a with
  | false =>
    rw [htakes, if_neg Bool.false_ne_true] at hstrip
    refine ⟨atQueries_mutatorDeep.clause hclause, .clause hclause htable, ?_, by rw [hstrip],
      fun _ _ _ _ => rfl⟩
    rw [hstrip]
    exact .atom (hstays htakes)
  | true =>
    rw [htakes, if_pos rfl] at hstrip
    obtain ⟨_, _, _, honTable⟩ := htable htakes
    refine ⟨atQueries_mutatorDeep.clause hclause, .clause hclause htable,
      by rw [hstrip]; exact .null, ?_, fun _ _ _ _ => rfl⟩
    rw [hstrip, directLinks_onTable honTable]
    rfl

theorem deepens_and {args : List (Node α)}
    (h : ∀ a ∈ args, ∃ a', Deepens cat rules P' A' B' l a a') :
    ∃ a', Deepens cat rules P' A' B' l (.boolExpr .andExpr args) a' := by
  obtain ⟨args', hargs⟩ := exists_forall₂ h
  have hrun := mutateList_forall₂ hargs fun _ _ h => h.run
  refine ⟨.boolExpr .andExpr args', by simp [mutate, mutatorDeep, hrun],
    .and (forall_right_of_forall₂ hargs fun _ _ h => h.parts), ?_, ?_,
    fun I D hD ρ => evalCond_and_forall₂ hargs fun _ _ h => h.value I D hD ρ⟩
  · rw [strip_and]
    exact .and (List.forall_mem_map.mpr (forall_right_of_forall₂ hargs fun _ _ h => h.nested))
  · rw [strip_and]
    exact directLinks_and_forall₂ hargs fun _ _ h => h.links

/-- The whole query: its sub-selects first, then its own constraints. -/
theorem Deepens.query {relids : List Oid} {rtable : List (Node α)} {tied : List Nat} {leaf : Bool}
    {quals quals' : Node α} (hover : List.Forall₂ (Over cat) relids rtable)
    (h : Deepens cat rules P' A' B' ⟨relids.length, tied, leaf⟩ quals quals') :
    ∃ rtable', mutate mutatorDeep (selectStarFrom cat relids rtable quals) () =
        some (selectStarFrom cat relids rtable' (strip none quals'), ()) ∧
      List.Forall₂ (Over cat) relids rtable' ∧
      ∀ I D, Conforms cat D → ∀ ρ,
        evalQuery I D (selectStarFrom cat relids rtable' (strip none quals')) ρ =
          evalQuery I D (selectStarFrom cat relids rtable quals) ρ := by
  obtain ⟨rtable', hself, hover', hrows⟩ := optimizeSelfConstraint_parts hover h.parts
  refine ⟨rtable', ?_, hover', fun I D hD ρ => ?_⟩
  · simp [selectStarFrom, mutate, mutatorDeep, h.run, hself]
  · rw [selectStarFrom, hrows I D hD, selectStarFrom, evalQuery, evalQuery]
    simp only [h.value I D hD]

theorem deepens_nested (hP : Strips P P') (hA : Strips A A') (hB : Strips B B') {a : Node α}
    (h : Nested cat rules P A B l a) : ∃ a', Deepens cat rules P' A' B' l a a' := by
  induction h generalizing A' B' with
  | null => exact ⟨.null, rfl, .null, .null, rfl, fun _ _ _ _ => rfl⟩
  | atom h => exact ⟨_, deepens_atom hA h⟩
  | and _ ih => exact deepens_and fun a ha => ih a ha hA hB
  | exist hnests hover hrule _ ih =>
    obtain ⟨quals', hquals⟩ := ih hP hP
    obtain ⟨rtable', hrun, hover', hrows⟩ := hquals.query hover
    refine ⟨.subLink .existsSublink .null (selectStarFrom cat _ rtable' (strip none quals')), ?_,
      .exist, .exist hnests hover' (hquals.links ▸ hrule) hquals.nested, rfl, fun I D hD ρ => ?_⟩
    · simp [mutate, mutatorDeep, hrun]
    · simp only [evalCond, hrows I D hD]
  | notExist hnests hover hrule _ ih =>
    obtain ⟨quals', hquals⟩ := ih hB hB
    obtain ⟨rtable', hrun, hover', hrows⟩ := hquals.query hover
    refine ⟨Split.notExists (selectStarFrom cat _ rtable' (strip none quals')), ?_,
      .notExist, .notExist hnests hover' (hquals.links ▸ hrule) hquals.nested, rfl,
      fun I D hD ρ => ?_⟩
    · simp [Split.notExists, mutate, mutatorDeep, mutateList, hrun]
    · simp only [Split.notExists, evalCond_not, evalCond, hrows I D hD]

end

/-! ### Running the pass again -/

/-- A condition that stays in the WHERE. -/
def Settled (_ : Level) (a : Node α) : Prop := Clause a ∧ takes a = false

theorem strips_piece : Strips (Piece (α := α)) Settled := fun _ _ h =>
  ⟨h, fun hstays => ⟨h.1, hstays⟩⟩

/-- Nothing is taken out of the WHERE. -/
theorem settled_nested {P B : Atoms α} {a : Node α} (h : Nested cat rules P Settled B l a) :
    Parts l.size a ∧ strip none a = a ∧ moved none a = [] := by
  generalize hA : Settled = A at h
  induction h with
  | null => exact ⟨.null, rfl, rfl⟩
  | atom h =>
    subst hA
    obtain ⟨hclause, hstays⟩ := h
    refine ⟨.clause hclause (by simp [hstays]), ?_, ?_⟩
    · rw [hclause.strip_eq, hstays, if_neg Bool.false_ne_true]
    · rw [hclause.moved_eq, hstays, if_neg Bool.false_ne_true]
  | and _ ih =>
    subst hA
    refine ⟨.and fun a ha => (ih a ha rfl).1, ?_, ?_⟩
    · rw [strip_and, List.map_congr_left fun a ha => (ih a ha rfl).2.1, List.map_id']
    · rw [moved_and, List.flatMap_eq_nil_iff]
      exact fun a ha => (ih a ha rfl).2.2
  | exist => exact ⟨.exist, rfl, rfl⟩
  | notExist => exact ⟨.notExist, rfl, rfl⟩

theorem optimizeSelfConstraint_settled {n : Nat} {targetList rtable : List (Node α)}
    {fromlist : List Nat} {quals : Node α} (hparts : Parts n quals)
    (hstrip : strip none quals = quals) (hmoved : moved none quals = []) :
    optimizeSelfConstraint (.query targetList rtable fromlist quals) =
      some (.query targetList rtable fromlist quals) := by
  obtain ⟨context, hrun, _, hrel⟩ := hparts.modifies makeContextOptimizerSelf []
    ⟨rfl, rfl, rfl, by simp, rfl⟩ (by rw [hmoved]; rfl)
  simp [optimizeSelfConstraint, hrun, hstrip, hrel, rewriteSelf]

theorem copy_query {B : Atoms α} {relids : List Oid} {rtable : List (Node α)} {quals : Node α}
    {tied : List Nat} {leaf : Bool}
    (h : Nested cat rules Settled Settled B ⟨relids.length, tied, leaf⟩ quals)
    (hrun : mutate mutatorDeep quals () = some (quals, ())) :
    mutate mutatorDeep (selectStarFrom cat relids rtable quals) () =
      some (selectStarFrom cat relids rtable quals, ()) := by
  obtain ⟨hparts, hstrip, hmoved⟩ := settled_nested h
  simp [selectStarFrom, mutate, mutatorDeep, hrun,
    optimizeSelfConstraint_settled hparts hstrip hmoved]

theorem copy_settled {A B : Atoms α} (hA : ∀ l a, A l a → Settled l a)
    (hB : ∀ l a, B l a → Settled l a) {a : Node α} (h : Nested cat rules Settled A B l a) :
    mutate mutatorDeep a () = some (a, ()) := by
  induction h with
  | null => rfl
  | atom h => exact atQueries_mutatorDeep.clause (hA _ _ h).1
  | and _ ih =>
    have hargs := mutateList_fixed fun a ha => ih a ha hA hB
    simp [mutate, mutatorDeep, hargs]
  | exist _ _ _ hquals ih =>
    simp [mutate, mutatorDeep, copy_query hquals (ih (fun _ _ => id) fun _ _ => id)]
  | notExist _ _ _ hquals ih =>
    have hquals' := hquals.mono (fun _ _ => id) hB hB
    simp [Split.notExists, mutate, mutatorDeep, mutateList, copy_query hquals' (ih hB hB)]

/-- On a `SELECT *` query over base tables with sub-selects of this kind at any depth, in each of
which only conditions on one table are taken out, `optimize_self_constraint_deep` returns a query
with the same rows, which it would leave as it is. -/
theorem optimizeSelfConstraintDeep_preserves {relids : List Oid} {quals : Node α} {tied : List Nat}
    {leaf : Bool} (h : Nested cat .any Piece Piece Piece ⟨relids.length, tied, leaf⟩ quals) :
    ∃ q', optimizeSelfConstraintDeep (selectFrom (selectStar cat relids) relids quals) = some q' ∧
      (∀ I D ρ, Conforms cat D → evalQuery I D q' ρ =
        evalQuery I D (selectFrom (selectStar cat relids) relids quals) ρ) ∧
      optimizeSelfConstraintDeep q' = some q' := by
  obtain ⟨quals', hquals⟩ := deepens_nested strips_piece strips_piece strips_piece h
  obtain ⟨rtable', hrun, _, hrows⟩ := hquals.query (forall₂_over_baseTables cat relids)
  have hagain := copy_settled (fun _ _ => id) (fun _ _ => id) hquals.nested
  exact ⟨_, optimizeSelfConstraintDeep_eq hrun, fun I D ρ hD => hrows I D hD ρ,
    optimizeSelfConstraintDeep_eq (copy_query hquals.nested hagain)⟩

/-- `(r.a = 1 OR r.b IS NULL) AND NOT EXISTS (SELECT * FROM s WHERE s.b = 2 AND s.a = r.a AND
EXISTS (SELECT * FROM t WHERE t.a IS NULL AND t.b = s.b))`, over tables with two columns. -/
def threeLevels : Node Int :=
  .boolExpr .andExpr [
    .boolExpr .orExpr [.opExpr 96 [.var ⟨1, 1, 0⟩, .const (some 1)],
      .nullTest .isNull (.var ⟨1, 2, 0⟩)],
    Split.notExists (selectStarFrom (.nullable 2) [2] [baseTable 2] (.boolExpr .andExpr [
      .opExpr 96 [.var ⟨1, 2, 0⟩, .const (some 2)],
      .opExpr 96 [.var ⟨1, 1, 0⟩, .var ⟨1, 1, 1⟩],
      .subLink .existsSublink .null (selectStarFrom (.nullable 2) [3] [baseTable 3]
        (.boolExpr .andExpr [.nullTest .isNull (.var ⟨1, 1, 0⟩),
          .opExpr 96 [.var ⟨1, 2, 0⟩, .var ⟨1, 2, 1⟩]]))]))]

theorem nested_threeLevels :
    Nested (.nullable 2) .any Piece Piece Piece ⟨1, [], false⟩ threeLevels := by
  have hconst : ∀ j c, Local 1 (.opExpr 96 [.var ⟨1, j, 0⟩, .const (some c)] : Node Int) :=
    fun j c => .comparison (by simpa using ⟨.column, .constant⟩) ⟨_, List.mem_cons_self⟩
  have hlink : ∀ j k l, Nested (.nullable 2) .any Piece Piece Piece l
      (.opExpr 96 [.var ⟨1, j, 0⟩, .var ⟨1, k, 1⟩] : Node Int) := fun j k l =>
    .atom (piece_stays (.test (.comparison (by simpa using ⟨.column, .column⟩))) rfl)
  have hover : ∀ relid, List.Forall₂ (Over (.nullable 2)) [relid] [baseTable (α := Int) relid] :=
    fun relid => forall₂_over_baseTables (.nullable 2) [relid]
  have hinner : Nested (.nullable 2) .any Piece Piece Piece ⟨1, [], true⟩
      (.boolExpr .andExpr [.nullTest .isNull (.var ⟨1, 1, 0⟩),
        .opExpr 96 [.var ⟨1, 2, 0⟩, .var ⟨1, 2, 1⟩]] : Node Int) := by
    refine .and (List.forall_mem_cons.mpr ⟨.atom ?_, List.forall_mem_singleton.mpr (hlink 2 2 _)⟩)
    exact piece_onTable (i := 1) (by decide) (by decide) (.one .nullTest)
  refine .and (List.forall_mem_cons.mpr ⟨.atom ?_, List.forall_mem_singleton.mpr
    (.notExist trivial (hover 2) trivial (.and ?_ : Nested _ _ _ _ _ ⟨1, [], false⟩ _))⟩)
  · refine piece_onTable (i := 1) (by decide) (by decide) (.or (by simp) ?_)
    exact List.forall_mem_cons.mpr ⟨hconst 1 1, List.forall_mem_singleton.mpr .nullTest⟩
  · refine List.forall_mem_cons.mpr ⟨.atom ?_, List.forall_mem_cons.mpr ⟨hlink 1 1 _,
      List.forall_mem_singleton.mpr (.exist trivial (hover 3) trivial hinner)⟩⟩
    exact piece_onTable (i := 1) (by decide) (by decide) (.one (hconst 2 2))

/-- Constraints move at all three levels. -/
theorem optimizeSelfConstraintDeep_preserves_threeLevels :
    ∃ q', optimizeSelfConstraintDeep
        (selectFrom (selectStar (.nullable 2) [1]) [1] threeLevels) = some q' ∧
      (∀ I D ρ, Conforms (.nullable 2) D → evalQuery I D q' ρ =
        evalQuery I D (selectFrom (selectStar (.nullable 2) [1]) [1] threeLevels) ρ) ∧
      optimizeSelfConstraintDeep q' = some q' :=
  optimizeSelfConstraintDeep_preserves nested_threeLevels

end Infed.Self
