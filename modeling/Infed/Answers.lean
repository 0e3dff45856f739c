import Infed.NotNullSound

/-! The rows that two queries return from two databases with related rows, when the WHERE of the
first one is true only where that of the second one is. -/

namespace Infed

variable {α : Type} {R : Row α → Row α → Prop}

/-- Related tables have related combinations, in the same order. -/
theorem forall₂_combinations {T T' : List (List (Row α))}
    (hT : List.Forall₂ (List.Forall₂ R) T T') (fromlist : List Nat) :
    List.Forall₂ (RowsRel R) (combinations T fromlist) (combinations T' fromlist) := by
  induction fromlist with
  | nil => exact .cons .nil .nil
  | cons i fromlist ih =>
    rw [combinations_cons, combinations_cons]
    have htable : List.Forall₂ R (T.getD (i - 1) []) (T'.getD (i - 1) []) :=
      forall₂_getD hT .nil (i - 1)
    refine List.rel_flatMap ih fun z z' hz => ?_
    rw [List.forall₂_map_left_iff, List.forall₂_map_right_iff]
    exact htable.imp fun _ _ hr => .cons ⟨rfl, hr⟩ hz

/-- If `quals'` is true only where `quals` is, and the rows computed from related rows are related,
then the rows of the one query are related to some of those of the other one, in order and each to
one of its own. -/
theorem evalQuery_forall₂ {I : Interp α} {D D' : Database α} {relids : List Oid}
    {targetList : List (Node α)} {quals quals' : Node α}
    (hD : ∀ relid, List.Forall₂ R (D relid) (D' relid))
    (hquals : ∀ ρ ρ' : Env α, ρ.Over D [relids] → ρ.Rel R ρ' →
      evalCond I D quals' ρ = .true → evalCond I D' quals ρ' = .true)
    (htarget : ∀ ρ ρ' : Env α, ρ.Rel R ρ' →
      R (evalScalars I D targetList ρ) (evalScalars I D' targetList ρ')) :
    ∃ chosen, chosen.Sublist (evalQuery I D' (selectFrom targetList relids quals) Env.empty) ∧
      List.Forall₂ R (evalQuery I D (selectFrom targetList relids quals') Env.empty) chosen := by
  simp only [selectFrom, evalQuery, evalRtable_baseTables]
  have hroot : Env.empty.Rel R (Env.empty (α := α)) := .nil
  have hover : Env.empty.Over D [] := fun l relids n relid hl => by cases hl
  have hcombinations := (List.forall₂_and_left _ _).mpr ⟨fun z hz => hover.push hz,
    forall₂_combinations (forall₂_map_tables hD relids) (List.range' 1 relids.length)⟩
  obtain ⟨zs, hsub, hrel⟩ := forall₂_filter hcombinations
    (p := fun z => decide (evalCond I D quals' (Env.empty.push z) = .true))
    (q := fun z => decide (evalCond I D' quals (Env.empty.push z) = .true))
    fun z z' hz htrue => by
      rw [decide_eq_true_iff] at htrue ⊢
      exact hquals _ _ hz.1 (hroot.push hz.2) htrue
  refine ⟨_, hsub.map _, ?_⟩
  rw [List.forall₂_map_left_iff, List.forall₂_map_right_iff]
  exact hrel.imp fun _ _ hz => htarget _ _ (hroot.push hz.2)

end Infed
