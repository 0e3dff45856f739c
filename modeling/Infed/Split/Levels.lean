import Infed.Levels
import Infed.Split.Deep

/-! `optimize_split_deep` on nested queries.  The ORs of a NOT EXISTS are split after those of the
sub-selects inside it; what comes out are NOT EXISTS over the same FROM whose WHEREs have no OR, and
in each of which the comparisons outside the ORs are as before. -/

namespace Infed.Split

variable {α : Type} {cat : Catalog} {rules : Rules} {P A B : Atoms α} {l : Level}

/-! ### Choices -/

/-- A conjunct of a NOT EXISTS while it is split. -/
def Mixed (l : Level) (a : Node α) : Prop := Single l a ∨ Alternatives l a

theorem orFree_test {a : Node α} (h : Self.Test a) : orFree a = true := by
  have hterm : ∀ a : Node α, Self.Leaf a → orFree a = true := by
    rintro a ⟨⟩ <;> rfl
  cases h with
  | comparison h =>
    rw [orFree, orFreeList_iff]
    exact fun a ha => hterm a (h a ha)
  | nullTest h =>
    rw [orFree]
    exact hterm _ h

theorem orFree_single {a : Node α} (h : Single l a) : orFree a = true := orFree_test h.test

theorem Mixed.clause {a : Node α} (h : Mixed l a) : Self.Clause a := by
  rcases h with h | ⟨_, _, h, _⟩
  · exact .test h.test
  · exact .or fun a ha => (h a ha).test

theorem choices_single {a : Node α} (h : Single l a) : choices a = [] :=
  choices_of_orFree a (orFree_single h)

theorem splittable_nested {a : Node α} (h : Nested cat rules P Mixed B l a) : Splittable a := by
  generalize hA : Mixed = A at h
  induction h with
  | null => exact .orFree rfl
  | atom h =>
    subst hA
    rcases h with h | ⟨_, hne, hargs, _⟩
    · exact .orFree (orFree_single h)
    · exact .or hne fun a ha => .orFree (orFree_single (hargs a ha))
  | and _ ih => exact .and fun a ha => ih a ha hA
  | exist | notExist => exact .orFree rfl

theorem choices_nested {a : Node α} (h : Nested cat rules P Mixed B l a) :
    ∀ c ∈ choices a, Nested cat rules P Mixed B l c ∧ ∀ e ∈ directLinks a, e ∈ directLinks c := by
  generalize hA : Mixed = A at h
  induction h with
  | null | exist | notExist => simp [choices, notExists]
  | atom h =>
    subst hA
    rcases h with h | ⟨_, hne, hargs, _⟩
    · simp [choices_single h]
    · exact fun c hc => ⟨.atom (.inl (hargs c hc)), fun e he => absurd he List.not_mem_nil⟩
  | @and _ _ _ args hargs ih =>
    subst hA
    intro c hc
    rw [choices, choicesList_eq, List.mem_map] at hc
    obtain ⟨cs, hcs, rfl⟩ := hc
    refine ⟨.and (forall_mem_chooseFirst hargs (fun a ha c hc => (ih a ha rfl c hc).1) hcs), ?_⟩
    obtain ⟨pre, a, post, rfl, -, heq⟩ := exists_chooseFirst_eq (List.ne_nil_of_mem hcs)
    rw [heq, List.mem_map] at hcs
    obtain ⟨c, hc, rfl⟩ := hcs
    have hlinks := (ih a (by simp) rfl c hc).2
    rw [directLinks_and, directLinks_and]
    simp only [List.flatMap_append, List.flatMap_cons, List.mem_append]
    exact fun e he => he.imp_right (Or.imp_left (hlinks e))

/-- Without choices there are no alternatives left. -/
theorem single_of_choices {a : Node α} (h : Nested cat rules P Mixed B l a)
    (hnil : choices a = []) : Nested cat rules P Single B l a := by
  generalize hA : Mixed = A at h
  induction h with
  | null => exact .null
  | atom h =>
    subst hA
    rcases h with h | ⟨_, hne, _, _⟩
    · exact .atom h
    · exact absurd hnil hne
  | and _ ih =>
    rw [choices, List.map_eq_nil_iff, choicesList_eq, chooseFirst_eq_nil_iff] at hnil
    exact .and fun a ha => ih a ha (hnil a ha) hA
  | exist hnests hover hrule hquals _ => exact .exist hnests hover hrule hquals
  | notExist hnests hover hrule hquals _ => exact .notExist hnests hover hrule hquals

/-! ### The queue -/

/-- The WHERE of a sub-select while it is split. -/
def Splitting (cat : Catalog) (P B : Atoms α) (l : Level) (a : Node α) : Prop :=
  Nested cat .tied P Mixed B l a ∧ Rules.tied.subselect l (directLinks a)

/-- Some comparison links a table with the enclosing query, so that there is no OR at the root. -/
theorem Splitting.queued {a : Node α} (h : Splitting cat P B l a) : Queued a := by
  obtain ⟨hnested, hne, htied⟩ := h
  have hsplit := splittable_nested hnested
  cases hnested with
  | null | exist | notExist => exact .inl rfl
  | @and _ _ _ args _ => exact .inr ⟨args, rfl, hsplit⟩
  | atom h =>
    rcases h with h | ⟨_, _, _, _⟩
    · exact .inl (orFree_single h)
    · obtain ⟨i, hi⟩ := List.exists_mem_of_ne_nil _ hne
      have hconn := (htied i hi).2.2
      rw [show directLinks (.boolExpr .orExpr _ : Node α) = [] from rfl, connected_nil] at hconn
      cases hconn

theorem splits_splitting : Splits (Splitting cat P B l) choices weight where
  pos := weight_pos
  stop a h := splits_queued.stop a h.queued
  split a h := splits_queued.split a h.queued
  choose a h := splits_queued.choose a h.queued
  closed a h c hc := by
    obtain ⟨hnested, hlinks⟩ := choices_nested h.1 c hc
    exact ⟨hnested, Rules.tied_mono h.2 hlinks⟩
  lighter a h := splits_queued.lighter a h.queued

/-! ### NOT EXISTS -/

theorem nested_conjoined {nexits : List (Node α)} (h : ∀ a ∈ nexits, Nested cat rules P A B l a) :
    Nested cat rules P A B l (conjoined nexits) := by
  unfold conjoined
  split
  · exact List.forall_mem_singleton.mp h
  · exact .and h

theorem directLinks_conjoined {nexits : List (Node α)} (h : ∀ a ∈ nexits, directLinks a = []) :
    directLinks (conjoined nexits) = [] := by
  unfold conjoined
  split
  · exact h _ List.mem_cons_self
  · rw [directLinks_and, List.flatMap_eq_nil_iff]
    exact h

/-- What the pass makes of the condition `a`, with enough fuel. -/
structure Deepens (cat : Catalog) (P A B : Atoms α) (l : Level) (a out : Node α) : Prop where
  run : Returns a out
  nested : Nested cat .tied P A B l out
  links : directLinks out = directLinks a
  value : ∀ I D ρ, evalCond I D out ρ = evalCond I D a ρ

/-- A NOT EXISTS, from its WHERE. -/
theorem deepens_notExist (hnests : Rules.tied.nests l) {relids : List Oid} {rtable : List (Node α)}
    (hover : List.Forall₂ (Self.Over cat) relids rtable) {tied : List Nat} {leaf : Bool}
    {quals quals' : Node α}
    (hrule : Rules.tied.subselect ⟨relids.length, tied, leaf⟩ (directLinks quals))
    (h : Deepens cat P Mixed Single ⟨relids.length, tied, leaf⟩ quals quals') :
    ∃ out, Deepens cat P A Single l (notExists (selectStarFrom cat relids rtable quals)) out := by
  have hsplitting : Splitting cat P Single ⟨relids.length, tied, leaf⟩ quals' :=
    ⟨h.nested, h.links ▸ hrule⟩
  obtain ⟨result, hresult⟩ := splits_splitting.exists_results _ le_rfl
    (List.forall_mem_singleton.mpr hsplitting)
  have hne := hresult.ne_nil (by simp)
  have hsound : ∀ I D ρ,
      evalCond I D quals' ρ = .true ↔ ∃ r ∈ result, evalCond I D r ρ = .true := by
    intro I D ρ
    have hkeeps := hresult.keeps (evalCond I D · ρ = .true) fun a ha hne =>
      ha.queued.splittable.evalCond_choices hne
    simpa using hkeeps
  obtain ⟨enough, hquals⟩ := h.run
  refine ⟨conjoined (result.map fun t => notExists (selectStarFrom cat relids rtable t)),
    ⟨max enough (load weight [quals'] + 1), fun fuel hfuel => ?_⟩, nested_conjoined ?_, ?_,
    fun I D ρ => ?_⟩
  · have hsplit : trueSplit fuel quals' = some result := hresult.returns fuel [] (by omega)
    rw [notExists, selectStarFrom, mutatorSplitDeep, hquals fuel (by omega), Option.bind_eq_bind,
      Option.bind_some]
    exact optimizeSplit_eq hsplit hne _ _ _
  · refine List.forall_mem_map.mpr fun r hr => ?_
    obtain ⟨⟨hnested, hrule'⟩, hnil⟩ := hresult.finished r hr
    exact .notExist hnests hover hrule' (single_of_choices hnested hnil)
  · exact directLinks_conjoined (List.forall_mem_map.mpr fun _ _ => rfl)
  · rw [evalCond_conjoined]
    refine (evalCond_split (hsound I D)).trans ?_
    simp only [notExists, selectStarFrom, evalCond_not, evalCond, evalQuery, h.value]

theorem deepens_and {args : List (Node α)} (h : ∀ a ∈ args, ∃ out, Deepens cat P A B l a out) :
    ∃ out, Deepens cat P A B l (.boolExpr .andExpr args) out := by
  obtain ⟨outs, houts⟩ := exists_forall₂ h
  obtain ⟨enough, hruns⟩ := mutatorSplitDeepList_returns (houts.imp fun _ _ h => h.run)
  refine ⟨.boolExpr .andExpr outs, ⟨enough, fun fuel hfuel => ?_⟩,
    .and (forall_right_of_forall₂ houts fun _ _ h => h.nested), ?_,
    fun I D ρ => evalCond_and_forall₂ houts fun _ _ h => h.value I D ρ⟩
  · simp [mutatorSplitDeep, hruns fuel hfuel]
  · simpa using directLinks_and_forall₂ (f := id) houts fun _ _ h => h.links

theorem copy_clause {a : Node α} (h : Self.Clause a) (fuel : Nat) :
    mutatorSplitDeep fuel a = some a := by
  have hterm : ∀ a : Node α, Self.Leaf a → mutatorSplitDeep fuel a = some a := by
    rintro a ⟨⟩ <;> rfl
  have htest : ∀ a : Node α, Self.Test a → mutatorSplitDeep fuel a = some a := by
    rintro a (h | h)
    · simp [mutatorSplitDeep, mutatorSplitDeepList_copy fun a ha => hterm a (h a ha)]
    · simp [mutatorSplitDeep, hterm _ h]
  cases h with
  | test h => exact htest a h
  | or h => simp [mutatorSplitDeep, mutatorSplitDeepList_copy fun a ha => htest a (h a ha)]

theorem deepens_nested (hB : ∀ l a, B l a → Mixed l a) (hA : ∀ l a, A l a → Self.Clause a)
    {a : Node α} (h : Nested cat .tied P A B l a) : ∃ out, Deepens cat P A Single l a out := by
  have hclause : ∀ l a, B l a → Self.Clause a := fun l a ha => (hB l a ha).clause
  induction h with
  | null => exact ⟨.null, ⟨0, fun _ _ => rfl⟩, .null, rfl, fun _ _ _ => rfl⟩
  | atom h =>
    exact ⟨_, ⟨0, fun fuel _ => copy_clause (hA _ _ h) fuel⟩, .atom h, rfl, fun _ _ _ => rfl⟩
  | and _ ih => exact deepens_and fun a ha => ih a ha hB hA hclause
  | exist hnests hover hrule hquals _ =>
    exact ⟨_, ⟨0, fun _ _ => rfl⟩, .exist hnests hover hrule hquals, rfl, fun _ _ _ => rfl⟩
  | notExist hnests hover hrule _ ih =>
    obtain ⟨quals', hquals⟩ := ih hB hclause hclause
    exact deepens_notExist hnests hover hrule
      ⟨hquals.run, hquals.nested.mono (fun _ _ => id) hB fun _ _ => id, hquals.links, hquals.value⟩

/-- On a query whose NOT EXISTS, nested in each other to any depth, have ORs only as conjuncts
beside a comparison that links the sub-select with the enclosing query, `optimize_split_deep`
returns; the rows are the same, and in none of them there is an OR left.  It does not look into an
EXISTS. -/
theorem optimizeSplitDeep_preserves {targetList rtable : List (Node α)} {fromlist : List Nat}
    {quals : Node α} (h : Nested cat .tied P (fun _ => Self.Clause) Mixed l quals) :
    ∃ quals' enough, (∀ fuel ≥ enough,
        optimizeSplitDeep fuel (.query targetList rtable fromlist quals) =
          some (.query targetList rtable fromlist quals')) ∧
      (∀ I D ρ, evalQuery I D (.query targetList rtable fromlist quals') ρ =
        evalQuery I D (.query targetList rtable fromlist quals) ρ) ∧
      Nested cat .tied P (fun _ => Self.Clause) Single l quals' := by
  obtain ⟨quals', ⟨enough, hrun⟩, hnested, _, hvalue⟩ :=
    deepens_nested (fun _ _ => id) (fun _ _ => id) h
  refine ⟨quals', enough, fun fuel hfuel => ?_, fun I D ρ => ?_, hnested⟩
  · simp [optimizeSplitDeep, hrun fuel hfuel]
  · simp only [evalQuery, hvalue]

/-- `NOT EXISTS (SELECT * FROM s WHERE s.a = r.a AND NOT EXISTS (SELECT * FROM t WHERE t.a = s.a AND
(t.b IS NULL OR t.b = s.b)))`, over tables with two columns. -/
def twoNegations : Node Int :=
  notExists (selectStarFrom (.nullable 2) [2] [baseTable 2] (.boolExpr .andExpr [
    .opExpr 96 [.var ⟨1, 1, 0⟩, .var ⟨1, 1, 1⟩],
    notExists (selectStarFrom (.nullable 2) [3] [baseTable 3] (.boolExpr .andExpr [
      .opExpr 96 [.var ⟨1, 1, 0⟩, .var ⟨1, 1, 1⟩],
      .boolExpr .orExpr [.nullTest .isNull (.var ⟨1, 2, 0⟩),
        .opExpr 96 [.var ⟨1, 2, 0⟩, .var ⟨1, 2, 1⟩]]]))]))

theorem nested_twoNegations : Nested (.nullable 2) .tied Single (fun _ => Self.Clause) Mixed
    ⟨1, [1], false⟩ twoNegations := by
  have hover := Self.forall₂_over_baseTables (α := Int) (.nullable 2)
  have hlinked : ∀ (leaf : Bool) {args : List (Node Int)}, Rules.tied.subselect ⟨1, [1], leaf⟩
      (directLinks (.boolExpr .andExpr (.opExpr 96 [.var ⟨1, 1, 0⟩, .var ⟨1, 1, 1⟩] :: args))) :=
    fun _ _ => Rules.tied_first (Nat.le_refl 1) List.mem_cons_self
  refine .notExist Rules.tied_nests_first (hover [2]) (hlinked false) (.and ?_)
  refine List.forall_mem_cons.mpr ⟨.atom (.inl (.inl (link_first _ _ _ 1))),
    List.forall_mem_singleton.mpr
      (.notExist Rules.tied_nests_first (hover [3]) (hlinked true) (.and ?_))⟩
  refine List.forall_mem_cons.mpr ⟨.atom (.inl (.inl (link_first _ _ _ 1))),
    List.forall_mem_singleton.mpr (.atom (.inr (.or rfl (by simp) ?_ rfl)))⟩
  exact List.forall_mem_cons.mpr ⟨.inr ⟨1, by decide, by decide, .nullTest⟩,
    List.forall_mem_singleton.mpr (.inl (link_first _ _ _ 2))⟩

/-- The inner NOT EXISTS becomes two. -/
theorem optimizeSplitDeep_preserves_twoNegations :
    ∃ quals' enough, (∀ fuel ≥ enough,
        optimizeSplitDeep fuel (selectStarFrom (.nullable 2) [1] [baseTable 1] twoNegations) =
          some (selectStarFrom (.nullable 2) [1] [baseTable 1] quals')) ∧
      (∀ I D ρ, evalQuery I D (selectStarFrom (.nullable 2) [1] [baseTable 1] quals') ρ =
        evalQuery I D (selectStarFrom (.nullable 2) [1] [baseTable 1] twoNegations) ρ) ∧
      Nested (.nullable 2) .tied Single (fun _ => Self.Clause) Single ⟨1, [1], false⟩ quals' :=
  optimizeSplitDeep_preserves nested_twoNegations

end Infed.Split
