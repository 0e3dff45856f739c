import Infed.Marked.Compare

/-! The marked-null translation and the order of integers.  The codes of nulls are negative, and an
order comparison is made on the codes themselves: a null comes before every constant, although it
may stand for a greater one.  The rewriting checks the columns of `=` and `<>` but not those of `<`
and `>`, nor the strict parts of `<=` and `>=`. -/

namespace Infed.Marked

variable {cat : Catalog} {os : Scopes} {m : ContextModifier Int} {D : Database Int} {ρ : Env Int}
  {v : Valuation}

/-! ### Rows under a valuation -/

/-- The rows with every null replaced. -/
def Valuation.env (v : Valuation) (ρ : Env Int) : Env Int :=
  ⟨ρ.levels.map fun z => z.map fun r => (r.1, r.2.map fun x => x.map v.toFun), ρ.param⟩

theorem Valuation.rel_env (v : Valuation) (ρ : Env Int) : ρ.Rel v.Replaces (v.env ρ) := by
  rw [Env.Rel, Valuation.env, List.forall₂_map_right_iff]
  refine List.forall₂_same.mpr fun z _ => ?_
  rw [RowsRel, List.forall₂_map_right_iff]
  refine List.forall₂_same.mpr fun r _ => ⟨rfl, ?_⟩
  rw [Valuation.Replaces, List.forall₂_map_right_iff]
  exact List.forall₂_same.mpr fun _ _ => rfl

/-- The valuation that gives the null `n` the value `k` and 0 to the others. -/
def Valuation.single (n : Int) (k : Nat) : Valuation where
  toFun i := if i < 0 then if i = n then k else 0 else i
  fixes i hi := if_neg (by omega)
  constant i hi := by
    rw [if_pos hi]
    split <;> omega

/-- A comparison of two columns or constants that are no nulls. -/
inductive OrderComparison (cat : Catalog) (os : Scopes) : Node Int → Prop where
  | mk {opno x y} : opno ∈ operators → Operand cat os x → Operand cat os y →
    (∀ n, .const (some n) ∈ [x, y] → 0 ≤ n) → OrderComparison cat os (.opExpr opno [x, y])

theorem OrderComparison.intComparison {a : Node Int} (h : OrderComparison cat os a) :
    IntComparison cat os a := by
  obtain ⟨hop, hx, hy, _⟩ := h
  exact .mk hop hx hy

/-! ### Comparisons that are misjudged -/

/-- The comparison of `a` and `b` on their codes is misjudged at polarity `p`.  At positive polarity
it is true because the smaller one is a null, and at negative polarity it is false because the one
that should be greater is a null.  A flag that a comparison before left set protects `<` and `>`. -/
def misjudged (p ready : Bool) (opno : Oid) (a b : Int) : Bool :=
  match opno with
  | 97 => !ready && if p then a < 0 && a < b else b < 0 && b < a
  | 521 => !ready && if p then b < 0 && b < a else a < 0 && a < b
  | 523 => p && a < 0 && a < b
  | 525 => p && b < 0 && b < a
  | _ => false

/-- The comparison is misjudged on the row. -/
def Misjudged (m : ContextModifier Int) (D : Database Int) (ρ : Env Int) : Node Int → Prop
  | .opExpr opno [x, y] => ∃ a b, evalScalar intInterp D x ρ = some a ∧
    evalScalar intInterp D y ρ = some b ∧ misjudged m.positive m.ready opno a b = true
  | _ => False

/-- On the rows `ρ`, `H'` is true only where `H` is true under every valuation, or, at negative
polarity, wherever `H` is true under some valuation. -/
def ApproximatesOn (p : Bool) (D : Database Int) (ρ : Env Int) (H H' : Node Int) : Prop :=
  ∀ (v : Valuation) (ρ' : Env Int), ρ.Rel v.Replaces ρ' →
    Kleene.Carries p true (evalCond intInterp D H' ρ) (evalCond intInterp (v.apply D) H ρ')

/-- An operand under a valuation. -/
theorem evalScalar_replaces {D' : Database Int} {ρ' : Env Int} {a : Node Int}
    (ha : Operand cat os a) (hconst : ∀ n, a = .const (some n) → 0 ≤ n)
    (hρ : ρ.Rel v.Replaces ρ') :
    evalScalar intInterp D' a ρ' = (evalScalar intInterp D a ρ).map v.toFun := by
  cases ha with
  | column _ => exact v.column hρ _
  | @constant c =>
    cases c with
    | none => rfl
    | some n => simp [evalScalar, v.fixes n (hconst n rfl)]

/-- A null is the value of a column. -/
theorem column_of_neg {a : Node Int} (ha : Operand cat os a)
    (hconst : ∀ n, a = .const (some n) → 0 ≤ n) {n : Int}
    (hn : evalScalar intInterp D a ρ = some n) (hneg : n < 0) : ∃ u, a = .var u := by
  cases ha with
  | @column u _ => exact ⟨u, rfl⟩
  | constant =>
    have := hconst n (congrArg Node.const hn)
    omega

/-! ### Two numbers -/

section

variable {a b : Int}

/-- A valuation keeps constants and gives nulls constants. -/
theorem Valuation.cases (v : Valuation) (n : Int) :
    0 ≤ n ∧ v.toFun n = n ∨ n < 0 ∧ 0 ≤ v.toFun n := by
  by_cases hn : 0 ≤ n
  · exact .inl ⟨hn, v.fixes n hn⟩
  · exact .inr ⟨by omega, v.constant n (by omega)⟩

/-- A null below `b` can stand for a greater number. -/
theorem exists_gt (ha : a < 0) (hab : a < b) : ∃ v : Valuation, v.toFun b < v.toFun a := by
  refine ⟨.single a (b.toNat + 1), ?_⟩
  simp only [Valuation.single, if_pos ha, if_true]
  split
  · rw [if_neg (by omega)]
    omega
  · omega

/-- The two parts of a comparison, the first one under the condition `P`. -/
def Parts (P : Prop) (opno : Oid) (a b : Int) : Prop :=
  P ∧ intCompare (checkedPart opno) a b = true ∨
    ∃ strict, pass.strictPart opno = some strict ∧ intCompare strict a b = true

section

variable {P : Prop}

@[simp] theorem parts_eq : Parts P 96 a b ↔ P ∧ a = b := by
  simp [Parts, checkedPart, pass, intCompare]

@[simp] theorem parts_ne : Parts P 518 a b ↔ P ∧ a ≠ b := by
  simp [Parts, checkedPart, pass, intCompare]

@[simp] theorem parts_lt : Parts P 97 a b ↔ P ∧ a < b := by
  simp [Parts, checkedPart, pass, intCompare]

@[simp] theorem parts_gt : Parts P 521 a b ↔ P ∧ b < a := by
  simp [Parts, checkedPart, pass, intCompare]

@[simp] theorem parts_le : Parts P 523 a b ↔ P ∧ a = b ∨ a < b := by
  simp [Parts, checkedPart, pass, intCompare]

@[simp] theorem parts_ge : Parts P 525 a b ↔ P ∧ a = b ∨ b < a := by
  simp [Parts, checkedPart, pass, intCompare]

end

theorem lt_of_constant (ha : 0 ≤ a) (hab : a < b) (v : Valuation) : v.toFun a < v.toFun b := by
  rw [v.fixes a ha, v.fixes b (by omega)]
  exact hab

theorem certain_lt (ready : Bool) (b : Int) {C : Prop} (hC : C → 0 ≤ a) :
    (∀ v : Valuation, (ready = true → C) ∧ a < b → v.toFun a < v.toFun b) ↔
      ¬(ready = false ∧ a < 0 ∧ a < b) := by
  constructor
  · rintro h ⟨rfl, ha, hab⟩
    obtain ⟨v, hv⟩ := exists_gt ha hab
    have := h v ⟨fun hready => Bool.noConfusion hready, hab⟩
    omega
  · rintro hnot v ⟨hchecks, hab⟩
    refine lt_of_constant ?_ hab v
    by_contra ha
    cases ready with
    | true => exact ha (hC (hchecks rfl))
    | false => exact hnot ⟨rfl, by omega, hab⟩

theorem certain_le {C : Prop} :
    (∀ v : Valuation, C ∧ a = b ∨ a < b → v.toFun a ≤ v.toFun b) ↔ ¬(a < 0 ∧ a < b) := by
  constructor
  · rintro h ⟨ha, hab⟩
    obtain ⟨v, hv⟩ := exists_gt ha hab
    have := h v (.inr hab)
    omega
  · rintro hnot v (⟨_, rfl⟩ | hab)
    · exact Int.le_refl _
    · exact Int.le_of_lt (lt_of_constant (by omega) hab v)

/-- At positive polarity, where `X` and `Y` say that the operands are columns. -/
theorem certain_iff {opno : Oid} (hop : opno ∈ operators) {ready : Bool} {X Y : Prop}
    (hX : a < 0 → X) (hY : b < 0 → Y) :
    (∀ v : Valuation, Parts ((ready || opno == 518) = true → (X → 0 < a) ∧ (Y → 0 < b)) opno a b →
      intCompare opno (v.toFun a) (v.toFun b) = true) ↔
      misjudged true ready opno a b = false := by
  -- the checks of a null fail
  have hchecks : ((X → 0 < a) ∧ (Y → 0 < b)) → 0 ≤ a ∧ 0 ≤ b := by
    rintro ⟨ha, hb⟩
    constructor
    · by_contra hneg
      have := ha (hX (by omega))
      omega
    · by_contra hneg
      have := hb (hY (by omega))
      omega
  simp only [operators, List.mem_cons, List.not_mem_nil, or_false] at hop
  rcases hop with rfl | rfl | rfl | rfl | rfl | rfl
  · refine iff_of_true (fun v h => ?_) rfl
    rw [parts_eq] at h
    simp [intCompare, h.2]
  · refine iff_of_true (fun v h => ?_) rfl
    rw [parts_ne] at h
    have hnn := hchecks (h.1 (by simp))
    simpa [intCompare, v.fixes a hnn.1, v.fixes b hnn.2] using h.2
  · have h := certain_lt ready b fun hC => (hchecks hC).1
    simpa [intCompare, misjudged] using h
  · have h := certain_lt ready a fun hC => (hchecks hC).2
    simpa [intCompare, misjudged] using h
  · simpa [intCompare, misjudged] using certain_le
  · simpa [intCompare, misjudged, eq_comm (a := a)] using certain_le (a := b) (b := a)

theorem possible_lt {ready : Bool} :
    (∀ v : Valuation, v.toFun a < v.toFun b → ready = true ∧ (a < 0 ∨ b < 0) ∨ a < b) ↔
      ¬(ready = false ∧ b < 0 ∧ b < a) := by
  constructor
  · rintro h ⟨rfl, hb, hab⟩
    obtain ⟨v, hv⟩ := exists_gt hb hab
    rcases h v hv with ⟨hready, _⟩ | hlt
    · cases hready
    · omega
  · intro hnot v hv
    have ha := v.cases a
    have hb := v.cases b
    by_cases hab : a = b
    · rw [hab] at hv
      omega
    · cases ready with
      | true =>
        by_cases hnull : a < 0 ∨ b < 0
        · exact .inl ⟨rfl, hnull⟩
        · exact .inr (by omega)
      | false =>
        have hconst : ¬(b < 0 ∧ b < a) := fun h => hnot ⟨rfl, h⟩
        exact .inr (by omega)

theorem parts_of_compare {opno : Oid} (hop : opno ∈ operators)
    (h : intCompare opno a b = true) : Parts True opno a b := by
  simp only [operators, List.mem_cons, List.not_mem_nil, or_false] at hop
  rcases hop with rfl | rfl | rfl | rfl | rfl | rfl <;>
    simp only [intCompare, decide_eq_true_eq, parts_eq, parts_ne, parts_lt, parts_gt, parts_le,
      parts_ge, true_and] at h ⊢ <;> omega

/-- At negative polarity. -/
theorem possible_iff {opno : Oid} (hop : opno ∈ operators) {ready : Bool} :
    (∀ v : Valuation, intCompare opno (v.toFun a) (v.toFun b) = true →
      ((ready || checkedPart opno == 96) = true ∧ (a < 0 ∨ b < 0)) ∨ Parts True opno a b) ↔
      misjudged false ready opno a b = false := by
  -- an equality is checked, and without nulls there is nothing to check
  have hchecked : checkedPart opno = 96 → ∀ v : Valuation,
      intCompare opno (v.toFun a) (v.toFun b) = true →
      ((ready || checkedPart opno == 96) = true ∧ (a < 0 ∨ b < 0)) ∨ Parts True opno a b := by
    intro hpart v h
    by_cases hnull : a < 0 ∨ b < 0
    · exact .inl ⟨by simp [hpart], hnull⟩
    · rw [v.fixes a (by omega), v.fixes b (by omega)] at h
      exact .inr (parts_of_compare hop h)
  simp only [operators, List.mem_cons, List.not_mem_nil, or_false] at hop
  rcases hop with rfl | rfl | rfl | rfl | rfl | rfl
  · exact iff_of_true (hchecked rfl) rfl
  · refine iff_of_true (fun v h => ?_) rfl
    simp only [intCompare, decide_eq_true_eq] at h
    rw [parts_ne]
    exact .inr ⟨trivial, fun hab => h (congrArg v.toFun hab)⟩
  · simpa [intCompare, misjudged, checkedPart, pass] using possible_lt
  · simpa [intCompare, misjudged, checkedPart, pass, or_comm] using possible_lt (a := b) (b := a)
  · exact iff_of_true (hchecked rfl) rfl
  · exact iff_of_true (hchecked rfl) rfl

end

/-! ### Comparisons on a row -/

section

variable {opno : Oid} {x y : Node Int} {a b : Int}

theorem evalCond_compare (hxa : evalScalar intInterp D x ρ = some a)
    (hyb : evalScalar intInterp D y ρ = some b) :
    evalCond intInterp D (.opExpr opno [x, y]) ρ = .true ↔ intCompare opno a b = true := by
  simp only [evalCond, evalScalars, hxa, hyb]
  exact Kleene.ofBool_eq_true

theorem evalCond_compare_none (h : evalScalar intInterp D x ρ = none ∨
    evalScalar intInterp D y ρ = none) :
    evalCond intInterp D (.opExpr opno [x, y]) ρ ≠ .true := by
  have hmem : none ∈ evalScalars intInterp D [x, y] ρ := by
    rcases h with h | h <;> simp [evalScalars, h]
  rw [evalCond, intInterp_strict opno _ hmem]
  decide

/-- Checks ask for values above 0 of columns. -/
theorem columns_positive_iff (hxa : evalScalar intInterp D x ρ = some a)
    (hyb : evalScalar intInterp D y ρ = some b) :
    (∀ u, .var u ∈ [x, y] → ∃ n, ρ.column u = some n ∧ 0 < n) ↔
      ((∃ u, x = .var u) → 0 < a) ∧ ((∃ u, y = .var u) → 0 < b) := by
  have hcolumn : ∀ {u : Var} {n k : Int}, evalScalar intInterp D (.var u) ρ = some k →
      ρ.column u = some n → n = k := fun hk hn => Option.some.inj (hn.symm.trans hk)
  constructor
  · intro h
    constructor
    · rintro ⟨u, rfl⟩
      obtain ⟨n, hn, hlt⟩ := h u (by simp)
      exact hcolumn hxa hn ▸ hlt
    · rintro ⟨u, rfl⟩
      obtain ⟨n, hn, hlt⟩ := h u (by simp)
      exact hcolumn hyb hn ▸ hlt
  · rintro ⟨hx, hy⟩ u hu
    rcases List.mem_cons.mp hu with rfl | hu
    · exact ⟨a, hxa, hx ⟨u, rfl⟩⟩
    · obtain rfl := List.mem_singleton.mp hu
      exact ⟨b, hyb, hy ⟨u, rfl⟩⟩

theorem rewriting_positive (hargs : ∀ a ∈ [x, y], Operand cat os a)
    (hs : m.currentTrueVar.Resolves cat os) (hp : m.positive = true)
    (hxa : evalScalar intInterp D x ρ = some a) (hyb : evalScalar intInterp D y ρ = some b) :
    evalCond intInterp D (rewriting m opno [x, y]) ρ = .true ↔
      Parts ((m.ready || opno == 518) = true →
        ((∃ u, x = .var u) → 0 < a) ∧ ((∃ u, y = .var u) → 0 < b)) opno a b := by
  rw [rewriting_parts, withChecks_positive hargs hs hp, checkedPart_beq,
    columns_positive_iff hxa hyb, evalCond_compare hxa hyb, Parts, StrictPart]
  simp only [evalCond_compare hxa hyb]

theorem rewriting_negative (hargs : ∀ a ∈ [x, y], Operand cat os a)
    (hs : m.currentTrueVar.Resolves cat os) (hp : m.positive = false) (hop : opno ∈ operators)
    (hknown : m.listOfNotNullInCurrent = [])
    (hconst : ∀ n, .const (some n) ∈ [x, y] → 0 ≤ n)
    (hxa : evalScalar intInterp D x ρ = some a) (hyb : evalScalar intInterp D y ρ = some b) :
    evalCond intInterp D (rewriting m opno [x, y]) ρ = .true ↔
      ((m.ready || checkedPart opno == 96) = true ∧ (a < 0 ∨ b < 0)) ∨ Parts True opno a b := by
  have hsame : pass.checks false (checkedPart opno) = (checkedPart opno == 96) := by
    simp only [operators, List.mem_cons, List.not_mem_nil, or_false] at hop
    rcases hop with rfl | rfl | rfl | rfl | rfl | rfl <;> rfl
  have hchecks : (∃ k ∈ pass.ownChecks (checkedPart opno) [x, y] m,
      evalCond intInterp D k ρ = .true) ↔
      (m.ready || checkedPart opno == 96) = true ∧ (a < 0 ∨ b < 0) := by
    constructor
    · rintro ⟨k, hk, hk'⟩
      obtain ⟨hasked, u, hu, rfl⟩ := mem_ownChecks_false hargs hs hp hk
      obtain ⟨n, hn, hlt⟩ := evalCond_lessZero.mp hk'
      refine ⟨hsame ▸ hasked, ?_⟩
      · rcases List.mem_cons.mp hu with rfl | hu
        · exact .inl (Option.some.inj (hn.symm.trans hxa) ▸ hlt)
        · obtain rfl := List.mem_singleton.mp hu
          exact .inr (Option.some.inj (hn.symm.trans hyb) ▸ hlt)
    · rintro ⟨hasked, hneg⟩
      obtain ⟨u, hu, n, hn, hlt⟩ : ∃ u, .var u ∈ [x, y] ∧ ∃ n, ρ.column u = some n ∧ n < 0 := by
        rcases hneg with ha | hb
        · obtain ⟨u, rfl⟩ := column_of_neg (hargs x (by simp))
            (fun n hn => hconst n (by simp [hn])) hxa ha
          exact ⟨u, by simp, a, hxa, ha⟩
        · obtain ⟨u, rfl⟩ := column_of_neg (hargs y (by simp))
            (fun n hn => hconst n (by simp [hn])) hyb hb
          exact ⟨u, by simp, b, hyb, hb⟩
      exact ⟨lessZero u, lessZero_mem_ownChecks hargs hs hp hknown hasked hu,
        evalCond_lessZero.mpr ⟨n, hn, hlt⟩⟩
  rw [rewriting_parts, hp, evalCond_withChecks_false, hchecks, evalCond_compare hxa hyb, or_assoc,
    Parts, StrictPart]
  simp only [evalCond_compare hxa hyb, true_and]

/-- Where an operand is NULL, neither the comparison nor its rewriting at positive polarity is
true. -/
theorem approximatesOn_of_none (hargs : ∀ a ∈ [x, y], Operand cat os a)
    (hs : m.currentTrueVar.Resolves cat os)
    (hvalue : ∀ z ∈ [x, y], ∀ (v : Valuation) (ρ' : Env Int), ρ.Rel v.Replaces ρ' →
      evalScalar intInterp (v.apply D) z ρ' = (evalScalar intInterp D z ρ).map v.toFun)
    (hnone : evalScalar intInterp D x ρ = none ∨ evalScalar intInterp D y ρ = none) :
    ApproximatesOn m.positive D ρ (.opExpr opno [x, y]) (rewriting m opno [x, y]) ↔
      ¬Misjudged m D ρ (.opExpr opno [x, y]) := by
  refine iff_of_true (fun v ρ' hρ => ?_) ?_
  · cases hp : m.positive with
    | true =>
      intro htrue
      rcases rewriting_parts.mp htrue with hpart | ⟨_, _, hpart⟩
      · exact absurd ((withChecks_positive hargs hs hp).mp hpart).2 (evalCond_compare_none hnone)
      · exact absurd hpart (evalCond_compare_none hnone)
    | false =>
      intro htrue
      refine absurd htrue (evalCond_compare_none ?_)
      rw [hvalue x (by simp) v ρ' hρ, hvalue y (by simp) v ρ' hρ, Option.map_eq_none_iff,
        Option.map_eq_none_iff]
      exact hnone
  · rintro ⟨a, b, hxa, hyb, _⟩
    rcases hnone with h | h
    · rw [h] at hxa
      cases hxa
    · rw [h] at hyb
      cases hyb

/-- The rewriting of a comparison approximates it on a row exactly if it is not misjudged there. -/
theorem approximatesOn_iff (hargs : ∀ a ∈ [x, y], Operand cat os a)
    (hs : m.currentTrueVar.Resolves cat os) (hop : opno ∈ operators)
    (hknown : m.listOfNotNullInCurrent = [])
    (hconst : ∀ n, .const (some n) ∈ [x, y] → 0 ≤ n) :
    ApproximatesOn m.positive D ρ (.opExpr opno [x, y]) (rewriting m opno [x, y]) ↔
      ¬Misjudged m D ρ (.opExpr opno [x, y]) := by
  have hvalue : ∀ z ∈ [x, y], ∀ (v : Valuation) (ρ' : Env Int), ρ.Rel v.Replaces ρ' →
      evalScalar intInterp (v.apply D) z ρ' = (evalScalar intInterp D z ρ).map v.toFun :=
    fun z hz v ρ' hρ => evalScalar_replaces (hargs z hz) (fun n hn => hconst n (hn ▸ hz)) hρ
  cases hxa : evalScalar intInterp D x ρ with
  | none => exact approximatesOn_of_none hargs hs hvalue (.inl hxa)
  | some a =>
    cases hyb : evalScalar intInterp D y ρ with
    | none => exact approximatesOn_of_none hargs hs hvalue (.inr hyb)
    | some b =>
      have hcompare : ∀ (v : Valuation) ρ', ρ.Rel v.Replaces ρ' →
          (evalCond intInterp (v.apply D) (.opExpr opno [x, y]) ρ' = .true ↔
            intCompare opno (v.toFun a) (v.toFun b) = true) := fun v ρ' hρ =>
        evalCond_compare (by rw [hvalue x (by simp) v ρ' hρ, hxa, Option.map_some])
          (by rw [hvalue y (by simp) v ρ' hρ, hyb, Option.map_some])
      have hmisjudged : Misjudged m D ρ (.opExpr opno [x, y]) ↔
          misjudged m.positive m.ready opno a b = true := by
        simp [Misjudged, hxa, hyb]
      rw [hmisjudged, Bool.not_eq_true]
      unfold ApproximatesOn
      cases hp : m.positive with
      | true =>
        have hx := column_of_neg (hargs x (by simp)) (fun n hn => hconst n (by simp [hn])) hxa
        have hy := column_of_neg (hargs y (by simp)) (fun n hn => hconst n (by simp [hn])) hyb
        rw [← certain_iff hop hx hy, ← rewriting_positive hargs hs hp hxa hyb]
        exact ⟨fun h v htrue => (hcompare v _ (v.rel_env ρ)).mp (h v _ (v.rel_env ρ) htrue),
          fun h v ρ' hρ htrue => (hcompare v ρ' hρ).mpr (h v htrue)⟩
      | false =>
        rw [← possible_iff hop, ← rewriting_negative hargs hs hp hop hknown hconst hxa hyb]
        exact ⟨fun h v htrue => h v _ (v.rel_env ρ) ((hcompare v _ (v.rel_env ρ)).mpr htrue),
          fun h v ρ' hρ htrue => h v ((hcompare v ρ' hρ).mp htrue)⟩

end

/-! ### Whole queries -/

/-- No comparison of the query is misjudged on rows of the tables in scope, in the context in which
the mutator comes to it. -/
def NothingMisjudged (D : Database Int) (q : Node Int) (c : ContextModifier Int) : Prop :=
  ∀ path target m, through path q = true → target.isAtom = true →
    pass.mutatorAt path q c = some (target, m) →
    ∀ ρ, ρ.Over D (scopesAt path q []) → ¬Misjudged m D ρ target

/-- With nothing known, the rewriting of each comparison approximates it, on rows of the tables in
scope and at its polarity, exactly where it is not misjudged; and where none is, the rewriting of
the WHERE approximates the WHERE. -/
theorem marked_order_approximates (cat : Catalog) (targetList : List (Node Int))
    (relids : List Oid) (quals : Node Int)
    (h : Cond (OrderComparison cat) False [relids] quals) :
    ∃ w c quals' c',
      myWalker cat (selectFrom targetList relids quals) makeContextWalkerSetConstraint = some w ∧
      makeContextModifier true w = some c ∧
      myMutator (selectFrom targetList relids quals) (emptied c) =
        some (selectFrom targetList relids quals', c') ∧
      ∀ D,
        (∀ path target, through path (selectFrom targetList relids quals) = true →
          nodeAt path (selectFrom targetList relids quals) = some target → target.isAtom = true →
          ∃ m out, pass.mutatorAt path (selectFrom targetList relids quals) (emptied c) =
              some (target, m) ∧
            nodeAt path (selectFrom targetList relids quals') = some out ∧
            ∀ ρ, ρ.Over D (scopesAt path (selectFrom targetList relids quals) []) →
              (ApproximatesOn (polarityAt path (selectFrom targetList relids quals) true) D ρ target
                out ↔ ¬Misjudged m D ρ target)) ∧
        (NothingMisjudged D (selectFrom targetList relids quals) (emptied c) →
          ∀ ρ, ρ.Over D [relids] → ApproximatesOn true D ρ quals quals') := by
  obtain ⟨w, hwalk, hmake⟩ := pass.prepares targetList
    (h.mono (fun _ _ ha => ha.intComparison.atom) id)
  obtain ⟨c, hc, prep⟩ := hmake true
  have hpos : (emptied c).positive = true := prep.positive
  obtain ⟨⟨q', c', hrun⟩, hreaches⟩ := fresh_returns (fun _ _ ha => ha.intComparison) h
    prep.fresh.emptied
  obtain ⟨_, quals', _, _, _, rfl⟩ := Pass.myMutator_selectFrom_inv hrun
  refine ⟨w, c, quals', c', hwalk, hc, hrun, fun D => ?_⟩
  have hplace : ∀ path target m out m',
      through path (selectFrom targetList relids quals) = true → target.isAtom = true →
      pass.mutatorAt path (selectFrom targetList relids quals) (emptied c) = some (target, m) →
      pass.myMutator target m = some (out, m') → ∀ ρ,
        (ApproximatesOn (polarityAt path (selectFrom targetList relids quals) true) D ρ target out ↔
          ¬Misjudged m D ρ target) := by
    intro path target m out m' hthrough hatom hm hrun' ρ
    have hcomes := hreaches path target m hthrough hatom hm
    have hknown : m.listOfNotNullInCurrent = [] :=
      List.eq_nil_iff_forall_not_mem.mpr ((knows_emptied c).mutatorAt hm).known
    have hp := hcomes.positive
    rw [hpos] at hp
    obtain ⟨hop, hx, hy, hconst⟩ := hcomes.atom
    have hargs := List.forall_mem_cons.mpr ⟨hx, List.forall_mem_singleton.mpr hy⟩
    obtain ⟨ready, hrun''⟩ := myMutator_comparison hargs hcomes.resolves hcomes.flags
    cases hrun''.symm.trans hrun'
    rw [← hp]
    exact approximatesOn_iff hargs hcomes.resolves hop hknown hconst
  constructor
  · intro path target hthrough hpath hatom
    obtain ⟨m, out, m', hm, hrun', hnode⟩ := Pass.myMutator_at hrun hpath hthrough
    exact ⟨m, out, hm, hnode, fun ρ _ => hplace path target m out m' hthrough hatom hm hrun' ρ⟩
  · intro hjudged ρ hover v ρ' hρ
    refine Pass.carries_query (v.replaces D) (fun _ _ ha => ha.intComparison.isAtom) h hrun ?_ hover
      hρ
    intro path target m out m' hthrough hatom hm hrun' σ σ' hover' hσ
    exact (hplace path target m out m' hthrough hatom hm hrun' σ).mpr
      (hjudged path target m hthrough hatom hm σ hover') v σ' hσ

/-- `r.a < 5`. -/
def belowFive : Node Int := .opExpr 97 [.var ⟨1, 1, 0⟩, .const (some 5)]

/-- `NOT EXISTS (SELECT FROM s WHERE r.a < s.a)`. -/
def greatest : Node Int :=
  .boolExpr .notExpr [existsFrom [] [2] (.opExpr 97 [.var ⟨1, 1, 1⟩, .var ⟨1, 1, 0⟩])]

theorem below_order : OrderComparison (Catalog.nullable 1) [[2], [1]]
    (.opExpr 97 [.var ⟨1, 1, 1⟩, .var ⟨1, 1, 0⟩]) :=
  .mk (by decide) (.column ⟨1, rfl, by decide, by decide⟩)
    (.column ⟨2, rfl, by decide, by decide⟩) (by simp)

theorem greatest_cond : Cond (OrderComparison (Catalog.nullable 1)) False [[1]] greatest :=
  .not (.inr rfl) (.exist (.leaf below_order))

/-- The one value of each table is the null -1. -/
def sameNull : Database Int := fun _ => [[some (-1)]]

/-- A null is not less than itself. -/
theorem nothingMisjudged_greatest {c : ContextModifier Int}
    (hc : Fresh (Catalog.nullable 1) (selectFrom [] [1] greatest) c) :
    NothingMisjudged sameNull (selectFrom [] [1] greatest) c := by
  have hcond : Cond (fun os a => OrderComparison (Catalog.nullable 1) os a ∧ os = [[2], [1]] ∧
      a = .opExpr 97 [.var ⟨1, 1, 1⟩, .var ⟨1, 1, 0⟩]) False [[1]] greatest :=
    .not (.inr rfl) (.exist (.leaf ⟨below_order, rfl, rfl⟩))
  intro path target m hthrough hatom hm ρ hover
  have hcomes := (fresh_returns (fun _ _ ha => ha.1.intComparison) hcond hc).2 path target m
    hthrough hatom hm
  obtain ⟨_, hos, rfl⟩ := hcomes.atom
  rw [hos] at hover
  have hr : ρ.row 1 1 = [some (-1)] := List.mem_singleton.mp (hover 1 [1] 1 1 rfl rfl)
  have hs : ρ.row 0 1 = [some (-1)] := List.mem_singleton.mp (hover 0 [2] 1 2 rfl rfl)
  rintro ⟨a, b, ha, hb, hmisjudged⟩
  simp only [evalScalar, Env.column, hr, hs] at ha hb
  cases ha
  cases hb
  cases hp : m.positive <;> simp [misjudged, hp] at hmisjudged

/-- Whatever the null stands for, the row is an answer. -/
theorem marked_order_approximates_greatest :
    ∃ w c quals' c',
      myWalker (Catalog.nullable 1) (selectFrom [] [1] greatest) makeContextWalkerSetConstraint =
        some w ∧
      makeContextModifier true w = some c ∧
      myMutator (selectFrom [] [1] greatest) (emptied c) = some (selectFrom [] [1] quals', c') ∧
      NothingMisjudged sameNull (selectFrom [] [1] greatest) (emptied c) ∧
      ∀ ρ, ρ.Over sameNull [[1]] → ApproximatesOn true sameNull ρ greatest quals' := by
  obtain ⟨w, c, quals', c', hwalk, hmake, hrun, h⟩ :=
    marked_order_approximates (Catalog.nullable 1) [] [1] greatest greatest_cond
  have hjudged : NothingMisjudged sameNull (selectFrom [] [1] greatest) (emptied c) := by
    obtain ⟨w', hwalk', hmake'⟩ := pass.prepares []
      (greatest_cond.mono (fun _ _ ha => ha.intComparison.atom) id)
    cases hwalk'.symm.trans hwalk
    obtain ⟨c', hc', prep⟩ := hmake' true
    cases hc'.symm.trans hmake
    exact nothingMisjudged_greatest prep.fresh.emptied
  exact ⟨w, c, quals', c', hwalk, hmake, hrun, hjudged, (h sameNull).2 hjudged⟩

/-- The WHERE of a query after a run with nothing known. -/
def rewrittenWhere (cat : Catalog) (q : Node Int) : Option (Node Int) := do
  let w ← myWalker cat q makeContextWalkerSetConstraint
  let c ← makeContextModifier true w
  let (q', _) ← myMutator q (emptied c)
  some q'.quals

/-- The value of `r.a` is the null -1, or 3, and the one of `s.a` is the null -1. -/
def nullAt (r : Int) : Database Int := fun relid => if relid = 1 then [[some r]] else [[some (-1)]]

/-- The null of `r.a < 5` may be 7, and the one of `r.a < s.a` too, so that neither row is certain;
but both conditions are true of the codes. -/
theorem marked_order_fails :
    ((rewrittenWhere (Catalog.nullable 1) (selectFrom [] [1] belowFive)).map fun quals =>
        evalCond intInterp (nullAt (-1)) quals (envAt (nullAt (-1)) [[1]] [[0]])) = some .true ∧
    evalCond intInterp ((Valuation.single (-1) 7).apply (nullAt (-1))) belowFive
      ((Valuation.single (-1) 7).env (envAt (nullAt (-1)) [[1]] [[0]])) = .false ∧
    ((rewrittenWhere (Catalog.nullable 1) (selectFrom [] [1] greatest)).map fun quals =>
        evalCond intInterp (nullAt 3) quals (envAt (nullAt 3) [[1]] [[0]])) = some .true ∧
    evalCond intInterp ((Valuation.single (-1) 7).apply (nullAt 3)) greatest
      ((Valuation.single (-1) 7).env (envAt (nullAt 3) [[1]] [[0]])) = .false := by
  refine ⟨?_, ?_, ?_, ?_⟩ <;> decide +kernel

end Infed.Marked
