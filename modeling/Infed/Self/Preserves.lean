import Infed.Self.Clauses

/-! Moving the constraints on single tables into FROM preserves the bag of rows.  The sub-select
that replaces a table returns the rows of the table that meet its constraints, whole, so that the
columns that refer to the table keep their meaning. -/

namespace Infed.Self

variable {α : Type} {n : Nat} {cat : Catalog}

theorem LocalOrKept.parts {a : Node α} (h : LocalOrKept n a) : Parts n a := by
  rcases h with ⟨i, h1, hn, hlocal⟩ | hkept
  · exact .clause (OnTable.one hlocal).clause fun _ => ⟨i, h1, hn, .one hlocal⟩
  · cases hkept with
    | linking hne =>
      refine .clause (.linking _ _ _) fun htakes => ?_
      rw [takes_linking hne] at htakes
      cases htakes
    | exist => exact .exist
    | notExist => exact .notExist

/-- A conjunct on one table is taken out, and the others stay. -/
theorem LocalOrKept.strip {a : Node α} (h : LocalOrKept n a) :
    strip none a = .null ∨ Kept (strip none a) := by
  rcases h with ⟨i, _, _, hlocal⟩ | hkept
  · rw [(OnTable.one hlocal).clause.strip_eq, if_pos (OnTable.one hlocal).oneTable.takes]
    exact .inl rfl
  · cases hkept with
    | linking hne =>
      rw [(Clause.linking _ _ _).strip_eq, takes_linking hne]
      exact .inr (.linking hne)
    | exist => exact .inr .exist
    | notExist => exact .inr .notExist

/-- A `SELECT *` query over base tables whose WHERE is an AND of conditions each of which moves or
stays. -/
theorem optimizeSelfConstraint_conjuncts {relids : List Oid} {args : List (Node α)}
    (h : ∀ a ∈ args, LocalOrKept relids.length a) :
    ∃ q', optimizeSelfConstraint
        (selectFrom (selectStar cat relids) relids (.boolExpr .andExpr args)) = some q' ∧
      (∀ I D ρ, Conforms cat D → evalQuery I D q' ρ =
        evalQuery I D (selectFrom (selectStar cat relids) relids (.boolExpr .andExpr args)) ρ) ∧
      optimizeSelfConstraint q' = some q' := by
  have hparts : Parts relids.length (.boolExpr .andExpr args) := .and fun a ha => (h a ha).parts
  obtain ⟨rtable', hrun, _, hrows⟩ :=
    optimizeSelfConstraint_parts (forall₂_over_baseTables cat relids) hparts
  refine ⟨_, hrun, fun I D ρ hD => hrows I D hD ρ, ?_⟩
  rw [strip_and]
  have hkept : ∀ a ∈ args.map (Self.strip none), a = .null ∨ Kept a :=
    List.forall_mem_map.mpr fun a ha => (h a ha).strip
  obtain ⟨table, hagain⟩ := modify_and hkept
  exact optimizeSelfConstraint_quiet hagain

/-- On a `SELECT *` query over base tables whose WHERE is an AND of comparisons, null tests, EXISTS,
and NOT EXISTS, `optimize_self_constraint` returns a query with the same rows, which it would leave
as it is. -/
theorem optimizeSelfConstraint_preserves {relids : List Oid} {args : List (Node α)}
    (h : ∀ a ∈ args, Conjunct relids.length a) :
    ∃ q', optimizeSelfConstraint
        (selectFrom (selectStar cat relids) relids (.boolExpr .andExpr args)) = some q' ∧
      (∀ I D ρ, Conforms cat D → evalQuery I D q' ρ =
        evalQuery I D (selectFrom (selectStar cat relids) relids (.boolExpr .andExpr args)) ρ) ∧
      optimizeSelfConstraint q' = some q' :=
  optimizeSelfConstraint_conjuncts fun a ha => (h a ha).local_or_kept

/-- `SELECT * FROM r, s WHERE r.a = 1 AND r.a = s.a AND r.b IS NULL AND NOT EXISTS (SELECT FROM t
WHERE t.a = s.a) AND r.b = r.a AND s.a = 2`. -/
def threeConstraints : List (Node Int) := [
  .opExpr 96 [.var ⟨1, 1, 0⟩, .const (some 1)],
  .opExpr 96 [.var ⟨1, 1, 0⟩, .var ⟨2, 1, 0⟩],
  .nullTest .isNull (.var ⟨1, 2, 0⟩),
  .boolExpr .notExpr [existsFrom [] [3] (.opExpr 96 [.var ⟨1, 1, 0⟩, .var ⟨2, 1, 1⟩])],
  .opExpr 96 [.var ⟨1, 2, 0⟩, .var ⟨1, 1, 0⟩],
  .opExpr 96 [.var ⟨2, 1, 0⟩, .const (some 2)]]

theorem conjunct_threeConstraints : ∀ a ∈ threeConstraints, Conjunct 2 a := by
  have hcolumn : ∀ i a, 1 ≤ i → i ≤ 2 → Operand 2 (.var ⟨i, a, 0⟩ : Node Int) :=
    fun i a h1 h2 => .column fun _ => ⟨h1, h2⟩
  simp only [threeConstraints, List.forall_mem_cons]
  refine ⟨.binary (hcolumn 1 1 (by decide) (by decide)) .constant ⟨_, .inl rfl, rfl⟩,
    .binary (hcolumn 1 1 (by decide) (by decide)) (hcolumn 2 1 (by decide) (by decide))
      ⟨_, .inl rfl, rfl⟩,
    .nullTest (hcolumn 1 2 (by decide) (by decide)) rfl, .notExist,
    .binary (hcolumn 1 2 (by decide) (by decide)) (hcolumn 1 1 (by decide) (by decide))
      ⟨_, .inl rfl, rfl⟩,
    .binary (hcolumn 2 1 (by decide) (by decide)) .constant ⟨_, .inl rfl, rfl⟩, by simp⟩

/-- Three constraints on `r` and one on `s` move, with two columns in every table. -/
theorem optimizeSelfConstraint_preserves_threeConstraints :
    (∀ a ∈ threeConstraints, Conjunct [1, 2].length a) ∧
      ∃ q', optimizeSelfConstraint (selectFrom (selectStar (.nullable 2) [1, 2]) [1, 2]
          (.boolExpr .andExpr threeConstraints)) = some q' ∧
        (∀ I D ρ, Conforms (.nullable 2) D → evalQuery I D q' ρ =
          evalQuery I D (selectFrom (selectStar (.nullable 2) [1, 2]) [1, 2]
            (.boolExpr .andExpr threeConstraints)) ρ) ∧
        optimizeSelfConstraint q' = some q' :=
  ⟨conjunct_threeConstraints, optimizeSelfConstraint_preserves conjunct_threeConstraints⟩

end Infed.Self
