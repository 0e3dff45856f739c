import Infed.Marked.Certain
import Infed.Places

/-! One comparison under the marked-null mutator, with each of the six operators.  Where checks are
asked for, by the operator or by a flag that was left set, they are joined to the comparison, with
AND at positive polarity and with OR at negative polarity.  `<=` and `>=` are taken apart, and then
only the equality can get checks. -/

namespace Infed.Marked

variable {cat : Catalog} {os : Scopes} {m : ContextModifier Int}

/-- `=`, `<>`, `<`, `>`, `<=`, and `>=`. -/
def operators : List Oid := [96, 518, 97, 521, 523, 525]

/-- A comparison of two columns or constants. -/
inductive IntComparison (cat : Catalog) (os : Scopes) : Node Int → Prop where
  | mk {opno x y} : opno ∈ operators → Operand cat os x → Operand cat os y →
    IntComparison cat os (.opExpr opno [x, y])

theorem IntComparison.isAtom {a : Node Int} (h : IntComparison cat os a) : a.isAtom = true := by
  cases h
  rfl

theorem IntComparison.atom {a : Node Int} (h : IntComparison cat os a) : Atom cat os a := by
  obtain ⟨_, hx, hy⟩ := h
  exact .comparison (List.forall_mem_cons.mpr ⟨hx, List.forall_mem_singleton.mpr hy⟩)

/-- The checks joined to a comparison. -/
def withChecks (p : Bool) (checks : List (Node Int)) (a : Node Int) : Node Int :=
  if checks.isEmpty then a
  else .boolExpr (if p then .andExpr else .orExpr) (checks ++ [a])

/-- What the mutator makes of a comparison, when no checks are pending. -/
def rewriting (m : ContextModifier Int) (opno : Oid) (args : List (Node Int)) : Node Int :=
  match pass.strictPart opno with
  | none => withChecks m.positive (pass.ownChecks opno args m) (.opExpr opno args)
  | some strict => .boolExpr .orExpr
      [withChecks m.positive (pass.ownChecks 96 args m) (.opExpr 96 args), .opExpr strict args]

section

variable {I : Interp Int} {D : Database Int} {ρ : Env Int} {checks : List (Node Int)} {a : Node Int}

theorem evalCond_withChecks_true :
    evalCond I D (withChecks true checks a) ρ = .true ↔
      (∀ k ∈ checks, evalCond I D k ρ = .true) ∧ evalCond I D a ρ = .true := by
  unfold withChecks
  split
  · next h =>
    rw [List.isEmpty_iff.mp h]
    simp
  · rw [if_pos rfl, evalCond_and_eq_true, List.forall_mem_append, List.forall_mem_singleton]

theorem evalCond_withChecks_false :
    evalCond I D (withChecks false checks a) ρ = .true ↔
      (∃ k ∈ checks, evalCond I D k ρ = .true) ∨ evalCond I D a ρ = .true := by
  unfold withChecks
  split
  · next h =>
    rw [List.isEmpty_iff.mp h]
    simp
  · rw [if_neg Bool.false_ne_true, evalCond_or_eq_true]
    simp only [List.mem_append, List.mem_singleton, or_and_right, exists_or, exists_eq_left]

end

/-! ### The mutator -/

/-- The operator of a comparison that is not taken apart. -/
theorem myMutator_plain {opno : Oid} {args : List (Node Int)}
    (hstrict : pass.strictPart opno = none) (hargs : ∀ a ∈ args, Operand cat os a)
    (hs : m.currentTrueVar.Resolves cat os) (hchecks : m.constraintToAdd = []) :
    pass.myMutator (.opExpr opno args) m =
      some (withChecks m.positive (pass.ownChecks opno args m) (.opExpr opno args),
        m.advance ((m.ready || pass.checks m.positive opno) &&
          (pass.ownChecks opno args m).isEmpty) [] 0 0) := by
  have hconnective : pass.connective m.positive =
      some (if m.positive then .andExpr else .orExpr) := rfl
  rw [pass.myMutator_opExpr hstrict hargs hs, hchecks, List.nil_append, hconnective, withChecks]
  generalize pass.ownChecks opno args m = own
  cases own.isEmpty <;> simp

/-- After the equality, the strict operator is asked for no more checks. -/
theorem ownChecks_strict {opno strict : Oid} {args : List (Node Int)}
    (hopno : pass.strictPart opno = some strict) :
    pass.ownChecks strict args (m.advance ((m.ready || pass.checks m.positive 96) &&
      (pass.ownChecks 96 args m).isEmpty) [] 0 0) = [] := by
  have hnot : pass.checks m.positive strict = false := by
    simp only [pass] at hopno ⊢
    split at hopno
    · cases hopno
      simp
    · split at hopno <;> cases hopno
      simp
  have hsame : pass.operandChecks (m.advance ((m.ready || pass.checks m.positive 96) &&
      (pass.ownChecks 96 args m).isEmpty) [] 0 0) = pass.operandChecks m := rfl
  rw [Pass.ownChecks, hsame]
  split
  · next hready =>
    -- the flag is still set only because the equality found no column to check
    have hready' : (m.ready || pass.checks m.positive 96) = true ∧
        (pass.ownChecks 96 args m).isEmpty = true := by
      simpa [ContextModifier.advance, hnot] using hready
    have hempty := hready'.2
    rw [Pass.ownChecks, if_pos hready'.1] at hempty
    exact List.isEmpty_iff.mp hempty
  · rfl

theorem myMutator_comparison {opno : Oid} {args : List (Node Int)}
    (hargs : ∀ a ∈ args, Operand cat os a) (hs : m.currentTrueVar.Resolves cat os)
    (hchecks : m.constraintToAdd = []) :
    ∃ ready, pass.myMutator (.opExpr opno args) m =
      some (rewriting m opno args, m.advance ready [] 0 0) := by
  unfold rewriting
  split
  · next hstrict => exact ⟨_, myMutator_plain hstrict hargs hs hchecks⟩
  · next strict hopno =>
    have hstrict : pass.strictPart strict = none := by
      simp only [pass] at hopno ⊢
      split at hopno
      · cases hopno
        rfl
      · split at hopno <;> cases hopno
        rfl
    have hplain := myMutator_plain hstrict hargs (m := m.advance ((m.ready ||
      pass.checks m.positive 96) && (pass.ownChecks 96 args m).isEmpty) [] 0 0) hs rfl
    rw [ownChecks_strict hopno] at hplain
    rw [pass.myMutator_takenApart hopno rfl hstrict, myMutator_plain rfl hargs hs hchecks]
    simp only [Option.bind_eq_bind, Option.bind_some, hplain]
    exact ⟨_, rfl⟩

/-! ### The checks -/

section

variable {opno : Oid} {args : List (Node Int)} {D : Database Int} {ρ : Env Int}

theorem evalCond_greaterZero {v : Var} :
    evalCond intInterp D (greaterZero v) ρ = .true ↔ ∃ n, ρ.column v = some n ∧ 0 < n := by
  cases hv : ρ.column v <;>
    simp [greaterZero, evalCond, evalScalars, evalScalar, hv, intInterp, intCompare]

theorem evalCond_lessZero {v : Var} :
    evalCond intInterp D (lessZero v) ρ = .true ↔ ∃ n, ρ.column v = some n ∧ n < 0 := by
  cases hv : ρ.column v <;>
    simp [lessZero, evalCond, evalScalars, evalScalar, hv, intInterp, intCompare]

theorem operandChecks_column (hs : m.currentTrueVar.Resolves cat os) {v : Var}
    (hv : v.InScope cat os) :
    ∃ known, pass.operandChecks m (.var v) = pass.check m.positive known v ∧
      (m.listOfNotNullInCurrent = [] → known = false) := by
  obtain ⟨t, ht, _⟩ := getTrueVar_of_inScope hs hv
  refine ⟨isInListTrueVar m.listOfNotNullInCurrent t, by rw [Pass.operandChecks, ht], fun h => ?_⟩
  rw [h]
  rfl

/-- At positive polarity each column that is checked is compared with 0. -/
theorem mem_ownChecks_true (hargs : ∀ a ∈ args, Operand cat os a)
    (hs : m.currentTrueVar.Resolves cat os) (hp : m.positive = true) {k : Node Int} :
    k ∈ pass.ownChecks opno args m ↔
      (m.ready || opno == 518) = true ∧ ∃ v, .var v ∈ args ∧ k = greaterZero v := by
  have hasks : pass.checks m.positive opno = (opno == 518) := by simp [pass, hp]
  rw [Pass.ownChecks, hasks]
  split
  · next hready =>
    rw [List.mem_flatMap]
    constructor
    · rintro ⟨a, ha, hk⟩
      refine ⟨hready, ?_⟩
      cases hargs a ha with
      | constant => cases hk
      | @column v hscope =>
        obtain ⟨known, hchecks, _⟩ := operandChecks_column hs hscope
        rw [hchecks, hp] at hk
        exact ⟨v, ha, by simpa [pass] using hk⟩
    · rintro ⟨_, v, hv, hk⟩
      refine ⟨.var v, hv, ?_⟩
      cases hargs _ hv with
      | column hscope =>
        obtain ⟨known, hchecks, _⟩ := operandChecks_column hs hscope
        rw [hchecks, hp, hk]
        simp [pass]
  · next hready => exact iff_of_false List.not_mem_nil fun h => hready h.1

/-- At negative polarity a column that is checked is compared with 0, unless it is known. -/
theorem mem_ownChecks_false (hargs : ∀ a ∈ args, Operand cat os a)
    (hs : m.currentTrueVar.Resolves cat os) (hp : m.positive = false) {k : Node Int}
    (hk : k ∈ pass.ownChecks opno args m) :
    (m.ready || pass.checks false opno) = true ∧ ∃ v, .var v ∈ args ∧ k = lessZero v := by
  rw [Pass.ownChecks, hp] at hk
  split at hk
  · next hasked =>
    refine ⟨hasked, ?_⟩
    obtain ⟨a, ha, hk⟩ := List.mem_flatMap.mp hk
    cases hargs a ha with
    | constant => cases hk
    | @column v hscope =>
      obtain ⟨known, hchecks, _⟩ := operandChecks_column hs hscope
      rw [hchecks, hp] at hk
      refine ⟨v, ha, ?_⟩
      cases known with
      | true => simp [pass] at hk
      | false => simpa [pass] using hk
  · cases hk

theorem lessZero_mem_ownChecks (hargs : ∀ a ∈ args, Operand cat os a)
    (hs : m.currentTrueVar.Resolves cat os) (hp : m.positive = false)
    (hknown : m.listOfNotNullInCurrent = []) (hasked : (m.ready || opno == 96) = true) {v : Var}
    (hv : .var v ∈ args) : lessZero v ∈ pass.ownChecks opno args m := by
  have hready : (m.ready || pass.checks m.positive opno) = true := by
    rcases Bool.or_eq_true_iff.mp hasked with h | h
    · rw [h, Bool.true_or]
    · simp [pass, hp, h]
  rw [Pass.ownChecks, if_pos hready]
  refine List.mem_flatMap.mpr ⟨.var v, hv, ?_⟩
  cases hargs _ hv with
  | column hscope =>
    obtain ⟨known, hchecks, hnot⟩ := operandChecks_column hs hscope
    rw [hchecks, hp, hnot hknown]
    simp [pass]

/-- At positive polarity, the comparison with its checks. -/
theorem withChecks_positive (hargs : ∀ a ∈ args, Operand cat os a)
    (hs : m.currentTrueVar.Resolves cat os) (hp : m.positive = true) {a : Node Int} :
    evalCond intInterp D (withChecks m.positive (pass.ownChecks opno args m) a) ρ = .true ↔
      ((m.ready || opno == 518) = true → ∀ v, .var v ∈ args → ∃ n, ρ.column v = some n ∧ 0 < n) ∧
        evalCond intInterp D a ρ = .true := by
  rw [hp, evalCond_withChecks_true]
  refine and_congr_left fun _ => ⟨fun h hasked v hv => ?_, fun h k hk => ?_⟩
  · exact evalCond_greaterZero.mp (h _ ((mem_ownChecks_true hargs hs hp).mpr ⟨hasked, v, hv, rfl⟩))
  · obtain ⟨hasked, v, hv, rfl⟩ := (mem_ownChecks_true hargs hs hp).mp hk
    exact evalCond_greaterZero.mpr (h hasked v hv)

end

/-! ### The two parts -/

/-- The operator that the checks are joined to: of one that is taken apart, the equality. -/
def checkedPart (opno : Oid) : Oid := if (pass.strictPart opno).isSome then 96 else opno

/-- The part without checks of an operator that is taken apart. -/
def StrictPart (opno : Oid) (args : List (Node Int)) (D : Database Int) (ρ : Env Int) : Prop :=
  ∃ strict, pass.strictPart opno = some strict ∧
    evalCond intInterp D (.opExpr strict args) ρ = .true

theorem strictPart_cases {opno strict : Oid} (h : pass.strictPart opno = some strict) :
    opno = 525 ∧ strict = 521 ∨ opno = 523 ∧ strict = 97 := by
  simp only [pass] at h
  split at h
  · next hop => exact .inl ⟨by simpa using hop, (Option.some.inj h).symm⟩
  · split at h
    · next hop => exact .inr ⟨by simpa using hop, (Option.some.inj h).symm⟩
    · cases h

theorem checkedPart_beq (opno : Oid) : (checkedPart opno == 518) = (opno == 518) := by
  unfold checkedPart
  split
  · next h =>
    obtain ⟨strict, hstrict⟩ := Option.isSome_iff_exists.mp h
    rcases strictPart_cases hstrict with ⟨rfl, _⟩ | ⟨rfl, _⟩ <;> rfl
  · rfl

/-- `<=` and `>=` are the disjunction of their two parts, which exclude each other. -/
theorem comparison_parts (opno : Oid) (args : List (Node Int)) (D : Database Int) (ρ : Env Int) :
    (evalCond intInterp D (.opExpr opno args) ρ = .true ↔
      evalCond intInterp D (.opExpr (checkedPart opno) args) ρ = .true ∨
        StrictPart opno args D ρ) ∧
    (evalCond intInterp D (.opExpr (checkedPart opno) args) ρ = .true →
      ¬StrictPart opno args D ρ) := by
  unfold checkedPart StrictPart
  cases hopno : pass.strictPart opno with
  | none => simp
  | some strict =>
    simp only [Option.isSome_some, if_true, Option.some.injEq, exists_eq_left', evalCond]
    generalize evalScalars intInterp D args ρ = values
    simp only [intInterp]
    split
    · rcases strictPart_cases hopno with ⟨rfl, rfl⟩ | ⟨rfl, rfl⟩ <;>
      · simp only [intCompare, Kleene.ofBool_eq_true, decide_eq_true_eq]
        omega
    · simp

theorem rewriting_parts {opno : Oid} {args : List (Node Int)} {D : Database Int} {ρ : Env Int} :
    evalCond intInterp D (rewriting m opno args) ρ = .true ↔
      evalCond intInterp D (withChecks m.positive (pass.ownChecks (checkedPart opno) args m)
        (.opExpr (checkedPart opno) args)) ρ = .true ∨ StrictPart opno args D ρ := by
  unfold rewriting checkedPart StrictPart
  cases pass.strictPart opno with
  | none => simp
  | some strict =>
    simp [evalCond_or_eq_true]

/-! ### A run -/

/-- No checks are pending. -/
def NoneLeft (_ready : Bool) (checks : List (Node Int)) : Prop := checks = []

/-- The mutator returns on every query, and comes to each comparison with no checks pending. -/
theorem fresh_returns {atom : Scopes → Node Int → Prop}
    (hatom : ∀ os a, atom os a → IntComparison cat os a) {targetList : List (Node Int)}
    {relids : List Oid} {quals : Node Int} {c : ContextModifier Int} {freeNot : Prop}
    (h : Cond atom freeNot [relids] quals)
    (hc : Fresh cat (selectFrom targetList relids quals) c) :
    (∃ q' c', pass.myMutator (selectFrom targetList relids quals) c = some (q', c')) ∧
      pass.Reaches NoneLeft atom cat [] (selectFrom targetList relids quals) c := by
  refine hc.traverses h (fun os a ha => (hatom os a ha).isAtom) rfl ?_
  intro path target m _ _ _ hcomes
  obtain ⟨hop, hx, hy⟩ := hatom _ _ hcomes.atom
  obtain ⟨ready, hrun⟩ := myMutator_comparison (List.forall_mem_cons.mpr
    ⟨hx, List.forall_mem_singleton.mpr hy⟩) hcomes.resolves hcomes.flags
  exact ⟨_, ready, [], hrun, rfl⟩

end Infed.Marked
