import Infed.Answers
import Infed.Run
import Infed.TargetList

/-! Conditions with IN: a sub-link that compares columns with the rows of a sub-select.  Both
traversals come first to its test expression, in which parameters stand for the columns of the
sub-select, and then to the sub-select. -/

namespace Infed

open CellList

variable {α : Type} {cat : Catalog}

/-! ### The fragment -/

/-- `testexpr op ANY (SELECT targetList FROM relids WHERE quals)`, of which IN is the case of an
equality. -/
def anyFrom (testexpr : Node α) (targetList : List (Node α)) (relids : List Oid) (quals : Node α) :
    Node α :=
  .subLink .anySublink testexpr (selectFrom targetList relids quals)

/-- The conditions over comparisons with one of the operators `ops`, in which sub-selects stand in
EXISTS or are compared with. -/
inductive Quantified (cat : Catalog) (ops : List Oid) : Scopes → Node α → Prop where
  | leaf {os a} : Comparison cat ops os a → Quantified cat ops os a
  | null {os} : Quantified cat ops os .null
  | and {os args} : args ≠ [] → (∀ a ∈ args, Quantified cat ops os a) →
    Quantified cat ops os (.boolExpr .andExpr args)
  | or {os args} : args ≠ [] → (∀ a ∈ args, Quantified cat ops os a) →
    Quantified cat ops os (.boolExpr .orExpr args)
  | not {os a} : Quantified cat ops os a → Quantified cat ops os (.boolExpr .notExpr [a])
  | exist {os targetList relids quals} : Quantified cat ops (relids :: os) quals →
    Quantified cat ops os (existsFrom targetList relids quals)
  | any {os testexpr targetList relids quals} : Test cat ops os testexpr →
    (∀ t ∈ targetList, SimpleEntry t) → Quantified cat ops (relids :: os) quals →
    Quantified cat ops os (anyFrom testexpr targetList relids quals)

/-! ### The walker -/

variable {os : Scopes}

/-- For the traversals a parameter is like a constant. -/
def unparam : Node α → Node α
  | .param _ => .const none
  | a => a

theorem operand_unparam {a : Node α} (h : TestOperand cat os a) : Operand cat os (unparam a) := by
  cases h with
  | param => exact .constant
  | operand h =>
    cases h with
    | column hv => exact .column hv
    | constant => exact .constant

section

variable (P : Pass α)

theorem Pass.myWalkerList_unparam (args : List (Node α)) (c : ContextWalkerSetConstraint) :
    P.myWalkerList cat (args.map unparam) c = P.myWalkerList cat args c := by
  have hone : ∀ (a : Node α) (c : ContextWalkerSetConstraint),
      P.myWalker cat (unparam a) c = P.myWalker cat a c := by
    intro a c
    cases a <;> rfl
  induction args generalizing c with
  | nil => rfl
  | cons a args ih => simp only [List.map_cons, Pass.myWalkerList, hone, ih]

/-- The walker returns where the tables `os` are in scope, whatever columns it comes to. -/
def Pass.Returns (cat : Catalog) (os : Scopes) (node : Node α) : Prop :=
  ∃ seen, P.WalksOn cat os seen node

theorem Pass.returns_comparison {opno : Oid} {args : List (Node α)}
    (hargs : ∀ a ∈ args, TestOperand cat os a) : P.Returns cat os (.opExpr opno args) := by
  refine ⟨seenVars cat (.opExpr opno (args.map unparam)), fun N M c hs inv => ?_⟩
  have hatom : Atom cat os (.opExpr opno (args.map unparam)) :=
    .comparison (List.forall_mem_map.mpr fun a ha => operand_unparam (hargs a ha))
  obtain ⟨c', hrun, w, hinv⟩ := P.myWalker_atom hatom hs inv
  refine ⟨c', ?_, w, hinv⟩
  rw [← hrun, Pass.myWalker, Pass.myWalker, P.myWalkerList_unparam]

theorem Pass.returns_boolExpr {args : List (Node α)} (boolop : BoolExprType) (hne : args ≠ [])
    (hargs : ∀ a ∈ args, P.Returns cat os a) : P.Returns cat os (.boolExpr boolop args) := by
  choose! see hsee using hargs
  exact ⟨_, P.walksOn_boolExpr boolop hne hsee⟩

/-- IN: the test expression, in which no query is, and then the sub-select. -/
theorem Pass.returns_anyFrom {testexpr : Node α} {targetList : List (Node α)} {relids : List Oid}
    {quals : Node α} (htest : ∃ opno args, testexpr = .opExpr opno args)
    (hreturns : P.Returns cat os testexpr) (hquals : P.Returns cat (relids :: os) quals) :
    P.Returns cat os (anyFrom testexpr targetList relids quals) := by
  obtain ⟨opno, args, rfl⟩ := htest
  obtain ⟨seen1, hwalks1⟩ := hreturns
  obtain ⟨seen, hquals⟩ := hquals
  have hwalks2 := P.walksOn_selectFrom targetList hquals
  refine ⟨fun scope rte => seen1 scope rte ++
    seen (scope.enter cat rte relids) (rte + relids.length), fun N M c hs inv => ?_⟩
  obtain ⟨c1, hrun1, w1, N1, hN1, inv1⟩ := hwalks1 N M c hs inv
  obtain ⟨c2, hrun2, w2, N2, hN2, inv2⟩ := hwalks2 N1 M c1 (w1.currentTrueVar.symm ▸ hs) inv1
  refine ⟨c2, ?_, ?_, N2, hN1.trans hN2, inv2⟩
  · rw [anyFrom, Pass.myWalker, hrun1]
    exact hrun2
  · rw [w1.currentTrueVar, w1.rtes] at w2
    have w := w1.trans w2
    simp only [queryScopes, rteCount, boolCount, List.nil_append, Nat.zero_add, Nat.add_zero] at w
    exact w

theorem Pass.returns_quantified {ops : List Oid} {node : Node α}
    (h : Quantified cat ops os node) : P.Returns cat os node := by
  induction h with
  | leaf ha =>
    obtain ⟨_, hargs, _⟩ := ha.test
    exact P.returns_comparison hargs
  | null =>
    exact ⟨fun _ _ => [], fun N M c _ inv =>
      ⟨c, rfl, Walked.refl cat M c, N, Nat.le_refl _, inv⟩⟩
  | and hne _ ih => exact P.returns_boolExpr .andExpr hne ih
  | or hne _ ih => exact P.returns_boolExpr .orExpr hne ih
  | not _ ih =>
    exact P.returns_boolExpr .notExpr (by simp) (List.forall_mem_singleton.mpr ih)
  | @exist os targetList relids _ _ ih =>
    obtain ⟨seen, hquals⟩ := ih
    refine ⟨fun scope rte => seen (scope.enter cat rte relids) (rte + relids.length),
      fun N M c hs inv => ?_⟩
    obtain ⟨c', hrun, w, hinv⟩ := P.walksOn_selectFrom targetList hquals N M c hs inv
    exact ⟨c', by simpa [existsFrom, Pass.myWalker] using hrun, w, hinv⟩
  | any ha _ _ ih =>
    obtain ⟨_, hargs, _⟩ := ha
    exact P.returns_anyFrom ⟨_, _, rfl⟩ (P.returns_comparison hargs) ih

/-- The walker returns on every query of the fragment, and the mutator can start with what it
recorded. -/
theorem Pass.starts_quantified {ops : List Oid} (targetList : List (Node α)) {relids : List Oid}
    {quals : Node α} (h : Quantified cat ops [relids] quals) :
    ∃ w seen, P.myWalker cat (selectFrom targetList relids quals) makeContextWalkerSetConstraint =
        some w ∧
      ∀ positive, ∃ c : ContextModifier α, makeContextModifier positive w = some c ∧
        Starts cat (selectFrom targetList relids quals) seen positive w c := by
  obtain ⟨seen, hquals⟩ := P.returns_quantified h
  obtain ⟨w, hrun, walked, N, _, inv⟩ := P.walksOn_selectFrom targetList hquals 0 0
    makeContextWalkerSetConstraint (Scope.resolves_root cat) walkInv_make
  exact ⟨w, _, hrun, walked.starts inv⟩

end

/-! ### The mutator -/

mutual

/-- The condition at polarity `p` with `leaf p` for each atom, test expressions included. -/
def translateIn (leaf : Bool → Node α → Node α) (p : Bool) : Node α → Node α
  | .null => .null
  | .boolExpr .notExpr args => .boolExpr .notExpr (translateInList leaf (!p) args)
  | .boolExpr boolop args => .boolExpr boolop (translateInList leaf p args)
  | .subLink kind testexpr subselect =>
    .subLink kind (translateIn leaf p testexpr) (translateIn leaf p subselect)
  | .query targetList rtable fromlist quals =>
    .query targetList rtable fromlist (translateIn leaf p quals)
  | a => leaf p a

def translateInList (leaf : Bool → Node α → Node α) (p : Bool) : List (Node α) → List (Node α)
  | [] => []
  | node :: nodes => translateIn leaf p node :: translateInList leaf p nodes

end

theorem translateInList_eq_map (leaf : Bool → Node α → Node α) (p : Bool) (nodes : List (Node α)) :
    translateInList leaf p nodes = nodes.map (translateIn leaf p) := by
  induction nodes with
  | nil => rfl
  | cons node nodes ih => simp [translateInList, ih]

section

variable {P : Pass α} {J : Bool → List (Node α) → Prop} {E K : List TrueVar → Prop}
  {Q : Bool → List TrueVar → Node α → Node α → Prop}

theorem Pass.myMutator_subLink {c c1 c2 : ContextModifier α} {kind : SubLinkType}
    {testexpr testout subselect out : Node α}
    (htest : P.myMutator testexpr c = some (testout, c1))
    (hsub : P.myMutator subselect c1 = some (out, c2)) :
    P.myMutator (.subLink kind testexpr subselect) c = some (.subLink kind testout out, c2) := by
  rw [Pass.myMutator] at htest hsub
  simp [Pass.myMutator, mutate, Pass.myMutatorStep, htest, hsub]

/-- IN: the test expression is rewritten, and then the sub-select. -/
theorem Pass.mutates_anyFrom {testexpr : Node α} {targetList : List (Node α)} {relids : List Oid}
    {quals : Node α} (htest : ∃ opno args, testexpr = .opExpr opno args)
    (hmutates : P.Mutates J E K Q cat os testexpr)
    (hquals : P.Mutates J E K Q cat (relids :: os) quals)
    (hQ : ∀ p k testout out, Q p k testexpr testout → Q p k quals out →
      Q p k (anyFrom testexpr targetList relids quals) (anyFrom testout targetList relids out)) :
    P.Mutates J E K Q cat os (anyFrom testexpr targetList relids quals) := by
  obtain ⟨opno, args, rfl⟩ := htest
  intro c rte hs hat hJ hK
  have hscopes : queryScopes cat (anyFrom (.opExpr opno args) targetList relids quals)
      c.currentTrueVar rte =
        queryScopes cat (selectFrom targetList relids quals) c.currentTrueVar rte := by
    rw [anyFrom, queryScopes]
  have hbools : boolCount (anyFrom (.opExpr opno args) targetList relids quals) =
      boolCount quals := by
    rw [anyFrom, boolCount, boolCount_selectFrom]
  rw [hscopes, hbools] at hat ⊢
  -- the test expression has no query and no AND/OR node in it
  have hatTest : AtPart E (queryScopes cat (.opExpr opno args) c.currentTrueVar rte)
      (boolCount (.opExpr opno args)) c :=
    ⟨⟨_, rfl⟩, by simpa [boolCount] using Nat.le_of_add_right_le hat.bools, hat.lengths,
      hat.setsTrue, hat.setsFalse⟩
  obtain ⟨testout, r1, ks1, hrun1, hJ1, hq1⟩ := hmutates c rte hs hatTest hJ hK
  have hat1 : AtPart E (queryScopes cat (selectFrom targetList relids quals) c.currentTrueVar rte)
      (boolCount quals) (c.advance r1 ks1 0 0) :=
    ⟨hat.queries, hat.bools, hat.lengths, hat.setsTrue, hat.setsFalse⟩
  obtain ⟨out, r2, ks2, hrun2, hJ2, hq2⟩ := P.myMutator_selectFrom hquals hs hat1 hJ1 hK
  refine ⟨anyFrom testout targetList relids out, r2, ks2, ?_, hJ2, hQ _ _ _ _ hq1 hq2⟩
  rw [ContextModifier.advance_advance, Nat.zero_add, Nat.zero_add] at hrun2
  exact Pass.myMutator_subLink hrun1 hrun2

variable {leaf : Bool → Node α → Node α} {ops : List Oid}

/-- A property of the rewriting that holds of comparisons and goes through each connective and each
sub-link holds of every condition. -/
theorem Pass.mutates_quantified (hclosed : ∀ k e, K k → E e → K (k ++ e))
    (hleaf : ∀ os a, Test cat ops os a → P.Mutates J E K Q cat os a)
    (hnull : ∀ p k, Q p k .null .null)
    (hbool : ∀ boolop p k known args outs, boolop ≠ .notExpr →
      List.Forall₂ (Q p (k ++ known)) args outs →
      Q p k (.boolExpr boolop args) (.boolExpr boolop outs))
    (hnot : ∀ p k a out, Q (!p) k a out →
      Q p k (.boolExpr .notExpr [a]) (.boolExpr .notExpr [out]))
    (hexists : ∀ p k targetList relids quals out, Q p k quals out →
      Q p k (existsFrom targetList relids quals) (existsFrom targetList relids out))
    (hany : ∀ p k opno args testout targetList relids quals out,
      Q p k (.opExpr opno args) testout → Q p k quals out →
      Q p k (anyFrom (.opExpr opno args) targetList relids quals)
        (anyFrom testout targetList relids out))
    {a : Node α} (h : Quantified cat ops os a) : P.Mutates J E K Q cat os a := by
  induction h with
  | leaf ha => exact hleaf _ _ ha.test
  | null => exact fun c _ _ _ hJ _ => ⟨.null, c.ready, c.constraintToAdd, rfl, hJ, hnull _ _⟩
  | and _ _ ih | or _ _ ih =>
    exact Pass.mutates_boolExpr hclosed (by simp) ih fun _ _ _ _ _ => hbool _ _ _ _ _ _ (by simp)
  | not _ ih => exact P.mutates_not ih fun _ _ _ => hnot _ _ _ _
  | exist _ ih => exact Pass.mutates_existsFrom ih fun _ _ _ => hexists _ _ _ _ _ _
  | any ha _ _ ih =>
    have hmutates := hleaf _ _ ha
    obtain ⟨_, _, _⟩ := ha
    exact Pass.mutates_anyFrom ⟨_, _, rfl⟩ hmutates ih fun _ _ _ _ => hany _ _ _ _ _ _ _ _ _

/-- If the mutator translates comparisons by `leaf` and leaves its flags as they were, it translates
conditions. -/
theorem Pass.mutates_translateIn
    (hleaf : ∀ os a, Test cat ops os a → P.Mutates Neutral (· = []) (· = [])
      (fun p _ a out => out = translateIn leaf p a) cat os a)
    {a : Node α} (h : Quantified cat ops os a) :
    P.Mutates Neutral (· = []) (· = []) (fun p _ a out => out = translateIn leaf p a) cat os a := by
  refine Pass.mutates_quantified (fun k e hk he => by rw [hk, he]; rfl) hleaf (fun _ _ => rfl)
    ?_ ?_ ?_ ?_ h
  · intro boolop p k known args outs hop houts
    have hmap : outs = translateInList leaf p args := by
      rw [translateInList_eq_map]
      exact forall₂_iff_eq_map.mp houts
    cases boolop <;> first | exact absurd rfl hop | simp [translateIn, hmap]
  · rintro p k a out rfl
    simp [translateIn, translateInList]
  · rintro p k targetList relids quals out rfl
    simp [existsFrom, selectFrom, translateIn]
  · rintro p k opno args testout targetList relids quals out rfl rfl
    simp [anyFrom, selectFrom, translateIn]

/-- The whole run on a query, with the lists that the walker recorded emptied. -/
theorem Pass.run_translateIn
    (hleaf : ∀ os a, Test cat ops os a → P.Mutates Neutral (· = []) (· = [])
      (fun p _ a out => out = translateIn leaf p a) cat os a)
    (targetList : List (Node α)) {relids : List Oid} {quals : Node α}
    (h : Quantified cat ops [relids] quals) :
    ∃ w seen c c',
      P.myWalker cat (selectFrom targetList relids quals) makeContextWalkerSetConstraint = some w ∧
      makeContextModifier true w = some c ∧
      Starts cat (selectFrom targetList relids quals) seen true w c ∧
      P.myMutator (selectFrom targetList relids quals) (emptied c) =
        some (selectFrom targetList relids (translateIn leaf true quals), c') := by
  obtain ⟨w, seen, hwalk, hmake⟩ := P.starts_quantified targetList h
  obtain ⟨c, hc, start⟩ := hmake true
  have hat := start.atStart.emptied
  rw [boolCount_selectFrom] at hat
  obtain ⟨out, r, ks, hrun, _, hout⟩ := Pass.myMutator_selectFrom
    (Pass.mutates_translateIn hleaf h) (Scope.resolves_root cat)
    hat ⟨start.ready, start.checks⟩ rfl
  rw [show (emptied c).positive = true from start.positive] at hout
  exact ⟨w, seen, c, _, hwalk, hc, start, hout ▸ hrun⟩

end

/-! ### Rows that a sub-select is compared with -/

section

variable {I : Interp α} {D D' : Database α} {R : Row α → Row α → Prop} {testexpr testout : Node α}
  {targetList : List (Node α)} {relids : List Oid} {quals quals' : Node α} {ρ ρ' : Env α}

theorem evalCond_anyFrom : evalCond I D (anyFrom testexpr targetList relids quals) ρ =
    .disj (((combinations (relids.map D) (List.range' 1 relids.length)).filter
      fun z => evalCond I D quals (ρ.push z) = .true).map fun z =>
        evalCond I D testexpr { ρ with param := evalScalars I D targetList (ρ.push z) }) := by
  simp only [anyFrom, selectFrom, evalCond, evalQuery, evalRtable_baseTables, List.map_map]
  rfl

theorem evalCond_anyFrom_eq_true :
    evalCond I D (anyFrom testexpr targetList relids quals) ρ = .true ↔
      ∃ z ∈ combinations (relids.map D) (List.range' 1 relids.length),
        evalCond I D quals (ρ.push z) = .true ∧ evalCond I D testexpr
          { ρ with param := evalScalars I D targetList (ρ.push z) } = .true := by
  simp [evalCond_anyFrom, Kleene.disj_eq_true_iff, and_assoc]

theorem evalCond_anyFrom_eq_false :
    evalCond I D (anyFrom testexpr targetList relids quals) ρ = .false ↔
      ∀ z ∈ combinations (relids.map D) (List.range' 1 relids.length),
        evalCond I D quals (ρ.push z) = .true → evalCond I D testexpr
          { ρ with param := evalScalars I D targetList (ρ.push z) } = .false := by
  simp only [evalCond_anyFrom, Kleene.disj_eq_false_iff, List.forall_mem_map, List.mem_filter,
    decide_eq_true_eq, and_imp]

/-- The rows of FROM stay related, whatever row a test expression compares with. -/
theorem Env.Rel.withParam (h : ρ.Rel R ρ') (r r' : Row α) :
    Env.Rel R { ρ with param := r } { ρ' with param := r' } := h

/-- IN over related tables: at positive polarity it can be relied on to be true, and at negative
polarity to be false. -/
theorem carries_anyFrom (hD : ∀ relid, List.Forall₂ R (D relid) (D' relid))
    (targetList : List (Node α)) (relids : List Oid) {p : Bool}
    (hquals : ∀ z z', RowsRel R z z' →
      Kleene.Carries p true (evalCond I D quals' (ρ.push z)) (evalCond I D' quals (ρ'.push z')))
    (htest : ∀ z z', RowsRel R z z' → Kleene.Carries p p
      (evalCond I D testout { ρ with param := evalScalars I D targetList (ρ.push z) })
      (evalCond I D' testexpr { ρ' with param := evalScalars I D' targetList (ρ'.push z') })) :
    Kleene.Carries p p (evalCond I D (anyFrom testout targetList relids quals') ρ)
      (evalCond I D' (anyFrom testexpr targetList relids quals) ρ') := by
  have htables := forall₂_map_tables hD relids
  cases p with
  | true =>
    simp only [Kleene.Carries, if_true, Kleene.ofBool, evalCond_anyFrom_eq_true] at hquals htest ⊢
    rintro ⟨z, hz, hwhere, hcompare⟩
    obtain ⟨z', hz', hrel⟩ := exists_combination htables hz
    exact ⟨z', hz', hquals z z' hrel hwhere, htest z z' hrel hcompare⟩
  | false =>
    simp only [Kleene.Carries, Bool.false_eq_true, if_true, if_false, Kleene.ofBool,
      evalCond_anyFrom_eq_false] at hquals htest ⊢
    intro hnone z' hz' hwhere
    obtain ⟨z, hz, hrel⟩ := exists_combination_left htables hz'
    exact htest z z' hrel (hnone z hz (hquals z z' hrel hwhere))

end

end Infed
