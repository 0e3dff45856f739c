import Infed.Fragment

/-! `my_mutator` on conditions.  Whatever it does to atoms, it keeps the AND/OR/NOT/EXISTS structure
of a condition, returns, and gives the context back with only the flags and the two counters
changed; `Pass.mutates_cond` is the induction rule that a property of the rewriting is proved
with. -/

namespace Infed

variable {α : Type} {cat : Catalog}

/-- The context after a part of the tree with `queries` queries and `bools` AND/OR nodes. -/
def ContextModifier.advance (c : ContextModifier α) (ready : Bool) (checks : List (Node α))
    (queries bools : Nat) : ContextModifier α :=
  { c with
    ready
    constraintToAdd := checks
    whereIAm := c.whereIAm + bools
    whereIAmQuerry := c.whereIAmQuerry + queries }

theorem ContextModifier.advance_advance (c : ContextModifier α) (r r' : Bool)
    (ks ks' : List (Node α)) (q q' b b' : Nat) :
    (c.advance r ks q b).advance r' ks' q' b' = c.advance r' ks' (q + q') (b + b') := by
  simp [ContextModifier.advance, Nat.add_assoc]

/-- The context is at the start of a part of the tree with the queries `scopes` and `bools` AND/OR
nodes, and the recorded sets satisfy `E`. -/
structure AtPart (E : List TrueVar → Prop) (scopes : List Scope) (bools : Nat)
    (c : ContextModifier α) : Prop where
  queries : ∃ post, c.trueVars.drop c.whereIAmQuerry = scopes ++ post
  bools : c.whereIAm + bools ≤ c.listListTrue.length
  lengths : c.listListFalse.length = c.listListTrue.length
  setsTrue : ∀ e ∈ c.listListTrue, E e
  setsFalse : ∀ e ∈ c.listListFalse, E e

namespace AtPart

variable {E : List TrueVar → Prop} {scopes scopes' : List Scope} {bools bools' : Nat}
  {c : ContextModifier α}

/-- A context with nothing read yet. -/
theorem start (htrueVars : c.trueVars = scopes) (htrue : c.listListTrue.length = bools)
    (hfalse : c.listListFalse.length = bools) (hbool : c.whereIAm = 0)
    (hquery : c.whereIAmQuerry = 0) : AtPart (fun _ => True) scopes bools c where
  queries := ⟨[], by rw [hquery, htrueVars, List.drop_zero, List.append_nil]⟩
  bools := by omega
  lengths := hfalse.trans htrue.symm
  setsTrue _ _ := trivial
  setsFalse _ _ := trivial

theorem left (h : AtPart E (scopes ++ scopes') (bools + bools') c) : AtPart E scopes bools c := by
  obtain ⟨⟨post, hq⟩, hb, hl, ht, hf⟩ := h
  exact ⟨⟨scopes' ++ post, by rw [hq, List.append_assoc]⟩, by omega, hl, ht, hf⟩

theorem right (h : AtPart E (scopes ++ scopes') (bools + bools') c) (ready : Bool)
    (checks : List (Node α)) :
    AtPart E scopes' bools' (c.advance ready checks scopes.length bools) := by
  obtain ⟨⟨post, hq⟩, hb, hl, ht, hf⟩ := h
  refine ⟨⟨post, ?_⟩, by simp only [ContextModifier.advance]; omega, hl, ht, hf⟩
  simp only [ContextModifier.advance]
  rw [← List.drop_drop, hq, List.append_assoc, List.drop_left]

/-- An AND/OR node finds its set. -/
theorem enterBoolExpr (h : AtPart E scopes (bools + 1) c) :
    ∃ known, E known ∧ c.enterBoolExpr = some { c with
      listOfNotNullInCurrent := c.listOfNotNullInCurrent ++ known
      whereIAm := c.whereIAm + 1 } := by
  obtain ⟨_, hb, hl, ht, hf⟩ := h
  let sets := if c.positive then c.listListTrue else c.listListFalse
  have hlen : sets.length = c.listListTrue.length := by
    simp only [sets]
    split
    · rfl
    · exact hl
  have hsets : ∀ e ∈ sets, E e := by
    simp only [sets]
    split
    · exact ht
    · exact hf
  have hlt : ((c.listListTrue.length : Int) - c.whereIAm - 1).toNat < sets.length := by omega
  refine ⟨_, hsets _ (List.getElem_mem hlt), ?_⟩
  simp only [ContextModifier.enterBoolExpr, listNth]
  rw [List.getElem?_eq_getElem hlt]
  rfl

/-- A query finds its scope. -/
theorem enterQuery {scope : Scope} (h : AtPart E (scope :: scopes) bools c) :
    c.enterQuery = some { c with
      currentTrueVar := scope, whereIAmQuerry := c.whereIAmQuerry + 1 } := by
  obtain ⟨⟨post, hq⟩, _⟩ := h
  have hget : c.trueVars[c.whereIAmQuerry]? = some scope := by
    rw [← Nat.add_zero c.whereIAmQuerry, ← List.getElem?_drop, hq]
    rfl
  simp [ContextModifier.enterQuery, listNth, hget]

/-- The arguments of an AND/OR node. -/
theorem inBoolExpr (h : AtPart E scopes (bools + 1) c) (known : List TrueVar) :
    AtPart E scopes bools { c with
      listOfNotNullInCurrent := c.listOfNotNullInCurrent ++ known
      whereIAm := c.whereIAm + 1 } := by
  refine ⟨h.queries, ?_, h.lengths, h.setsTrue, h.setsFalse⟩
  have hbools := h.bools
  show c.whereIAm + 1 + bools ≤ c.listListTrue.length
  omega

/-- The argument of a NOT. -/
theorem inNot (h : AtPart E scopes bools c) : AtPart E scopes bools c.enterNot :=
  ⟨h.queries, h.bools, h.lengths, h.setsTrue, h.setsFalse⟩

/-- The WHERE of a query. -/
theorem inQuery {scope : Scope} (h : AtPart E (scope :: scopes) bools c) :
    AtPart E scopes bools { c with
      currentTrueVar := scope, whereIAmQuerry := c.whereIAmQuerry + 1 } := by
  obtain ⟨post, hq⟩ := h.queries
  refine ⟨⟨post, ?_⟩, h.bools, h.lengths, h.setsTrue, h.setsFalse⟩
  show c.trueVars.drop (c.whereIAmQuerry + 1) = scopes ++ post
  rw [← List.drop_drop, hq]
  rfl

end AtPart

/-! ### Atoms -/

/-- The checks that a column or constant adds to those of its comparison, when checks are asked
for. -/
def Pass.operandChecks (P : Pass α) (c : ContextModifier α) : Node α → List (Node α)
  | .var v =>
    match getTrueVar c.currentTrueVar v with
    | some rv => P.check c.positive (isInListTrueVar c.listOfNotNullInCurrent rv) v
    | none => []
  | _ => []

/-- The checks that a comparison adds. -/
def Pass.ownChecks (P : Pass α) (opno : Oid) (args : List (Node α)) (c : ContextModifier α) :
    List (Node α) :=
  if c.ready || P.checks c.positive opno then args.flatMap (P.operandChecks c) else []

section Atoms

variable (P : Pass α) {os : Scopes} {c : ContextModifier α}

theorem Pass.myMutator_operand {a : Node α} (ha : Operand cat os a)
    (hs : c.currentTrueVar.Resolves cat os) :
    P.myMutator a c = some (a, c.advance c.ready
      (c.constraintToAdd ++ if c.ready then P.operandChecks c a else []) 0 0) := by
  cases ha with
  | constant =>
    simp [Pass.myMutator, mutate, Pass.myMutatorStep, Pass.operandChecks, ContextModifier.advance]
  | column hv =>
    obtain ⟨t, ht, _⟩ := getTrueVar_of_inScope hs hv
    rw [Pass.myMutator, mutate]
    simp only [Pass.myMutatorStep, Pass.enterVar]
    by_cases hready : c.ready = true
    · simp [Pass.operandChecks, ContextModifier.advance, ht, hready]
    · rw [if_neg hready, if_neg hready]
      simp [ContextModifier.advance]

theorem Pass.myMutator_testOperand {a : Node α} (ha : TestOperand cat os a)
    (hs : c.currentTrueVar.Resolves cat os) :
    P.myMutator a c = some (a, c.advance c.ready
      (c.constraintToAdd ++ if c.ready then P.operandChecks c a else []) 0 0) := by
  cases ha with
  | operand ha => exact P.myMutator_operand ha hs
  | param =>
    simp [Pass.myMutator, mutate, Pass.myMutatorStep, Pass.operandChecks, ContextModifier.advance]

theorem Pass.myMutatorList_testOperands {args : List (Node α)}
    (hargs : ∀ a ∈ args, TestOperand cat os a) (hs : c.currentTrueVar.Resolves cat os) :
    P.myMutatorList args c = some (args, c.advance c.ready
      (c.constraintToAdd ++ if c.ready then args.flatMap (P.operandChecks c) else []) 0 0) := by
  induction args generalizing c with
  | nil => simp [Pass.myMutatorList, mutateList, ContextModifier.advance]
  | cons a args ih =>
    have hhead := P.myMutator_testOperand (hargs a List.mem_cons_self) hs
    have htail := ih (fun b hb => hargs b (List.mem_cons_of_mem _ hb))
      (c := c.advance c.ready
        (c.constraintToAdd ++ if c.ready then P.operandChecks c a else []) 0 0) hs
    have hsame : ∀ ks, P.operandChecks (c.advance c.ready ks 0 0) = P.operandChecks c :=
      fun ks => rfl
    rw [Pass.myMutatorList, mutateList_cons hhead htail, hsame, ContextModifier.advance_advance]
    cases c.ready <;> simp [ContextModifier.advance]

/-- A null test is copied; its column can still add a check. -/
theorem Pass.myMutator_nullTest {test : NullTestType} {arg : Node α} (harg : Operand cat os arg)
    (hs : c.currentTrueVar.Resolves cat os) :
    P.myMutator (.nullTest test arg) c = some (.nullTest test arg, c.advance c.ready
      (c.constraintToAdd ++ if c.ready then P.operandChecks c arg else []) 0 0) := by
  have h := P.myMutator_operand harg hs
  rw [Pass.myMutator] at h
  simp [Pass.myMutator, mutate, Pass.myMutatorStep, h]

/-- A comparison of columns, constants and parameters: without checks it is copied; with checks it
is joined to them, or, where nothing joins them, copied, and its own checks are added once more. -/
theorem Pass.myMutator_test {opno : Oid} {args : List (Node α)}
    (hstrict : P.strictPart opno = none) (hargs : ∀ a ∈ args, TestOperand cat os a)
    (hs : c.currentTrueVar.Resolves cat os) :
    P.myMutator (.opExpr opno args) c = some (
      if (c.constraintToAdd ++ P.ownChecks opno args c).isEmpty then
        (.opExpr opno args, c.advance (c.ready || P.checks c.positive opno) [] 0 0)
      else
        match P.connective c.positive with
        | some boolop =>
          (.boolExpr boolop (c.constraintToAdd ++ P.ownChecks opno args c ++ [.opExpr opno args]),
            c.advance false [] 0 0)
        | none =>
          (.opExpr opno args, c.advance (c.ready || P.checks c.positive opno)
            (c.constraintToAdd ++ P.ownChecks opno args c ++ P.ownChecks opno args c) 0 0)) := by
  generalize hown : P.ownChecks opno args c = own
  generalize hready : (c.ready || P.checks c.positive opno) = ready
  have hent : P.enterOpExpr opno c = c.advance ready c.constraintToAdd 0 0 := by
    rw [Pass.enterOpExpr, ← hready]
    cases P.checks c.positive opno <;> simp [ContextModifier.advance]
  have hlist : ∀ ks, mutateList P.myMutatorStep args (c.advance ready ks 0 0) =
      some (args, c.advance ready (ks ++ own) 0 0) := by
    intro ks
    have h := P.myMutatorList_testOperands hargs (c := c.advance ready ks 0 0) hs
    rw [Pass.myMutatorList] at h
    rw [h, ContextModifier.advance_advance, ← hown, Pass.ownChecks, hready]
    rfl
  simp only [Pass.myMutator, mutate, Pass.myMutatorStep, hstrict, Pass.compare, hent, hlist,
    Option.bind_eq_bind, Option.bind_some]
  generalize c.constraintToAdd ++ own = checks
  cases checks with
  | nil => rfl
  | cons k ks =>
    cases hcon : P.connective c.positive <;> simp [ContextModifier.advance, hcon]

/-- The same for a comparison without parameters. -/
theorem Pass.myMutator_opExpr {opno : Oid} {args : List (Node α)}
    (hstrict : P.strictPart opno = none) (hargs : ∀ a ∈ args, Operand cat os a)
    (hs : c.currentTrueVar.Resolves cat os) :
    P.myMutator (.opExpr opno args) c = some (
      if (c.constraintToAdd ++ P.ownChecks opno args c).isEmpty then
        (.opExpr opno args, c.advance (c.ready || P.checks c.positive opno) [] 0 0)
      else
        match P.connective c.positive with
        | some boolop =>
          (.boolExpr boolop (c.constraintToAdd ++ P.ownChecks opno args c ++ [.opExpr opno args]),
            c.advance false [] 0 0)
        | none =>
          (.opExpr opno args, c.advance (c.ready || P.checks c.positive opno)
            (c.constraintToAdd ++ P.ownChecks opno args c ++ P.ownChecks opno args c) 0 0)) :=
  P.myMutator_test hstrict (fun a ha => .operand (hargs a ha)) hs

/-- A comparison copied with another operator. -/
theorem withOpno_expressionTreeMutator (opno opno' : Oid) (args : List (Node α)) :
    withOpno opno' (expressionTreeMutator P.myMutatorStep (.opExpr opno args)) =
      expressionTreeMutator P.myMutatorStep (.opExpr opno' args) := by
  funext c
  cases hlist : mutateList P.myMutatorStep args c <;>
    simp [withOpno, expressionTreeMutator, hlist]

/-- An operator that is taken apart: first the equality, then the strict operator. -/
theorem Pass.myMutator_takenApart {opno strict : Oid} {args : List (Node α)}
    (hopno : P.strictPart opno = some strict) (heq : P.strictPart 96 = none)
    (hstrict : P.strictPart strict = none) :
    P.myMutator (.opExpr opno args) c = (do
      let (equa, c) ← P.myMutator (.opExpr 96 args) c
      let (stric, c) ← P.myMutator (.opExpr strict args) c
      some (.boolExpr .orExpr [equa, stric], c)) := by
  have hstep : ∀ opno, P.myMutator (.opExpr opno args) = P.myMutatorStep (.opExpr opno args)
      (expressionTreeMutator P.myMutatorStep (.opExpr opno args)) := fun _ => rfl
  simp only [hstep, Pass.myMutatorStep, hopno, heq, hstrict, withOpno_expressionTreeMutator]

end Atoms

/-! ### Connectives -/

section Connectives

variable {P : Pass α} {c : ContextModifier α} {ready : Bool} {checks : List (Node α)}
  {queries bools : Nat}

/-- An AND/OR node: its arguments are mutated with the columns recorded for it known. -/
theorem Pass.myMutator_boolExpr {boolop : BoolExprType} (hop : boolop ≠ .notExpr)
    {known : List TrueVar} {args outs : List (Node α)}
    (hent : c.enterBoolExpr = some { c with
      listOfNotNullInCurrent := c.listOfNotNullInCurrent ++ known, whereIAm := c.whereIAm + 1 })
    (hrun : P.myMutatorList args { c with
        listOfNotNullInCurrent := c.listOfNotNullInCurrent ++ known, whereIAm := c.whereIAm + 1 } =
      some (outs, ContextModifier.advance { c with
        listOfNotNullInCurrent := c.listOfNotNullInCurrent ++ known, whereIAm := c.whereIAm + 1 }
        ready checks queries bools)) :
    P.myMutator (.boolExpr boolop args) c =
      some (.boolExpr boolop outs, c.advance ready checks queries (bools + 1)) := by
  rw [Pass.myMutatorList] at hrun
  rw [Pass.myMutator, mutate]
  cases boolop with
  | notExpr => exact absurd rfl hop
  | andExpr | orExpr =>
    simp [Pass.myMutatorStep, hent, hrun, ContextModifier.advance, Nat.add_comm, Nat.add_left_comm]

theorem Pass.myMutator_not {a out : Node α}
    (hrun : P.myMutator a c.enterNot =
      some (out, c.enterNot.advance ready checks queries bools)) :
    P.myMutator (.boolExpr .notExpr [a]) c =
      some (.boolExpr .notExpr [out], c.advance ready checks queries bools) := by
  have hlist : mutateList P.myMutatorStep [a] c.enterNot =
      some ([out], c.enterNot.advance ready checks queries bools) := mutateList_cons hrun rfl
  simp only [Pass.myMutator, mutate, Pass.myMutatorStep, hlist, Option.bind_eq_bind,
    Option.bind_some]
  simp [ContextModifier.advance, ContextModifier.enterNot]

/-- A query: its WHERE is mutated in the scope recorded for it. -/
theorem Pass.myMutator_query {targetList rtable : List (Node α)} {fromlist : List Nat}
    {quals out : Node α} {scope : Scope}
    (hent : c.enterQuery = some { c with
      currentTrueVar := scope, whereIAmQuerry := c.whereIAmQuerry + 1 })
    (hrun : P.myMutator quals { c with
        currentTrueVar := scope, whereIAmQuerry := c.whereIAmQuerry + 1 } =
      some (out, ContextModifier.advance { c with
        currentTrueVar := scope, whereIAmQuerry := c.whereIAmQuerry + 1 }
        ready checks queries bools)) :
    P.myMutator (.query targetList rtable fromlist quals) c =
      some (.query targetList rtable fromlist out,
        c.advance ready checks (queries + 1) bools) := by
  rw [Pass.myMutator] at hrun
  simp [Pass.myMutator, mutate, Pass.myMutatorStep, hent, hrun, ContextModifier.advance,
    Nat.add_comm, Nat.add_left_comm]

theorem Pass.myMutator_exists {c' : ContextModifier α} {subselect out : Node α}
    (hrun : P.myMutator subselect c = some (out, c')) :
    P.myMutator (.subLink .existsSublink .null subselect) c =
      some (.subLink .existsSublink .null out, c') := by
  rw [Pass.myMutator] at hrun
  simp [Pass.myMutator, mutate, Pass.myMutatorStep, hrun]

end Connectives

/-! ### The induction rule -/

section

variable (P : Pass α) (J : Bool → List (Node α) → Prop) (E K : List TrueVar → Prop)
  (Q : Bool → List TrueVar → Node α → Node α → Prop)

/-- From every context in which the tables `os` are in scope, the flags satisfy `J`, and the known
columns `K`, the mutator returns a node related by `Q`, for the polarity and the known columns, and
flags that satisfy `J`. -/
def Pass.Mutates (cat : Catalog) (os : Scopes) (node : Node α) : Prop :=
  ∀ (c : ContextModifier α) (rte : Nat), c.currentTrueVar.Resolves cat os →
    AtPart E (queryScopes cat node c.currentTrueVar rte) (boolCount node) c →
    J c.ready c.constraintToAdd → K c.listOfNotNullInCurrent →
    ∃ out ready checks, P.myMutator node c = some (out, c.advance ready checks
        (queryScopes cat node c.currentTrueVar rte).length (boolCount node)) ∧
      J ready checks ∧ Q c.positive c.listOfNotNullInCurrent node out

variable {P J E K Q} {os : Scopes}

theorem Pass.myMutatorList_spec {args : List (Node α)}
    (hargs : ∀ a ∈ args, P.Mutates J E K Q cat os a) {c : ContextModifier α} {rte : Nat}
    (hs : c.currentTrueVar.Resolves cat os)
    (hat : AtPart E (queryScopesList cat args c.currentTrueVar rte) (boolCountList args) c)
    (hJ : J c.ready c.constraintToAdd) (hK : K c.listOfNotNullInCurrent) :
    ∃ outs ready checks, P.myMutatorList args c = some (outs, c.advance ready checks
        (queryScopesList cat args c.currentTrueVar rte).length (boolCountList args)) ∧
      J ready checks ∧ List.Forall₂ (Q c.positive c.listOfNotNullInCurrent) args outs := by
  induction args generalizing c rte with
  | nil => exact ⟨[], c.ready, c.constraintToAdd, rfl, hJ, .nil⟩
  | cons a args ih =>
    obtain ⟨out, r1, ks1, hrun1, hJ1, hq⟩ := hargs a List.mem_cons_self c rte hs hat.left hJ hK
    obtain ⟨outs, r2, ks2, hrun2, hJ2, hqs⟩ := ih (fun b hb => hargs b (List.mem_cons_of_mem _ hb))
      (c := c.advance r1 ks1 (queryScopes cat a c.currentTrueVar rte).length (boolCount a)) hs
      (hat.right r1 ks1) hJ1 hK
    refine ⟨out :: outs, r2, ks2, ?_, hJ2, .cons hq hqs⟩
    rw [Pass.myMutatorList, mutateList_cons hrun1 hrun2, ContextModifier.advance_advance,
      queryScopesList, List.length_append]
    rfl

theorem Pass.mutates_boolExpr (hclosed : ∀ k e, K k → E e → K (k ++ e)) {boolop : BoolExprType}
    (hop : boolop ≠ .notExpr)
    {args : List (Node α)} (hargs : ∀ a ∈ args, P.Mutates J E K Q cat os a)
    (hQ : ∀ p k known outs, E known → List.Forall₂ (Q p (k ++ known)) args outs →
      Q p k (.boolExpr boolop args) (.boolExpr boolop outs)) :
    P.Mutates J E K Q cat os (.boolExpr boolop args) := by
  intro c rte hs hat hJ hK
  rw [boolCount_boolExpr hop, queryScopes_boolExpr] at hat ⊢
  obtain ⟨known, hE, hent⟩ := hat.enterBoolExpr
  obtain ⟨outs, r, ks, hrun, hJ', hqs⟩ := P.myMutatorList_spec hargs
    (c := { c with
      listOfNotNullInCurrent := c.listOfNotNullInCurrent ++ known, whereIAm := c.whereIAm + 1 }) hs
    (hat.inBoolExpr known) hJ
    (hclosed _ _ hK hE)
  exact ⟨.boolExpr boolop outs, r, ks, P.myMutator_boolExpr hop hent hrun, hJ',
    hQ _ _ known outs hE hqs⟩

theorem Pass.mutates_not {a : Node α} (ha : P.Mutates J E K Q cat os a)
    (hQ : ∀ p k out, Q (!p) k a out → Q p k (.boolExpr .notExpr [a]) (.boolExpr .notExpr [out])) :
    P.Mutates J E K Q cat os (.boolExpr .notExpr [a]) := by
  intro c rte hs hat hJ hK
  rw [boolCount_not, queryScopes_not] at hat ⊢
  obtain ⟨out, r, ks, hrun, hJ', hq⟩ := ha c.enterNot rte hs
    hat.inNot hJ hK
  exact ⟨.boolExpr .notExpr [out], r, ks, P.myMutator_not hrun, hJ', hQ _ _ _ hq⟩

/-- A query keeps its target list and its FROM, and its WHERE is rewritten. -/
theorem Pass.myMutator_selectFrom {targetList : List (Node α)} {relids : List Oid} {quals : Node α}
    (hquals : P.Mutates J E K Q cat (relids :: os) quals) {c : ContextModifier α} {scope : Scope}
    {rte : Nat} (hs : scope.Resolves cat os)
    (hat : AtPart E (queryScopes cat (selectFrom targetList relids quals) scope rte)
      (boolCount quals) c) (hJ : J c.ready c.constraintToAdd) (hK : K c.listOfNotNullInCurrent) :
    ∃ out ready checks, P.myMutator (selectFrom targetList relids quals) c =
        some (selectFrom targetList relids out, c.advance ready checks
          (queryScopes cat (selectFrom targetList relids quals) scope rte).length
          (boolCount quals)) ∧
      J ready checks ∧ Q c.positive c.listOfNotNullInCurrent quals out := by
  rw [queryScopes_selectFrom] at hat ⊢
  have hent := hat.enterQuery
  obtain ⟨out, r, ks, hrun, hJ', hq⟩ := hquals
    { c with
      currentTrueVar := scope.enter cat rte relids
      whereIAmQuerry := c.whereIAmQuerry + 1 } (rte + relids.length) (hs.enter rte relids)
    hat.inQuery hJ hK
  exact ⟨out, r, ks, P.myMutator_query hent hrun, hJ', hq⟩

theorem Pass.mutates_existsFrom {targetList : List (Node α)} {relids : List Oid} {quals : Node α}
    (hquals : P.Mutates J E K Q cat (relids :: os) quals)
    (hQ : ∀ p k out, Q p k quals out →
      Q p k (existsFrom targetList relids quals) (existsFrom targetList relids out)) :
    P.Mutates J E K Q cat os (existsFrom targetList relids quals) := by
  intro c rte hs hat hJ hK
  rw [boolCount_existsFrom, queryScopes_subselect] at hat ⊢
  obtain ⟨out, r, ks, hrun, hJ', hq⟩ := P.myMutator_selectFrom hquals hs hat hJ hK
  exact ⟨existsFrom targetList relids out, r, ks, P.myMutator_exists hrun, hJ', hQ _ _ _ hq⟩

/-- A property of the rewriting that holds of atoms and goes through each connective holds of every
condition. -/
theorem Pass.mutates_cond {leaf : Scopes → Node α → Prop} {freeNot : Prop}
    (hclosed : ∀ k e, K k → E e → K (k ++ e))
    (hleaf : ∀ os a, leaf os a → P.Mutates J E K Q cat os a)
    (hnull : ∀ p k, Q p k .null .null)
    (hbool : ∀ boolop p k known args outs, boolop ≠ .notExpr → E known →
      List.Forall₂ (Q p (k ++ known)) args outs →
      Q p k (.boolExpr boolop args) (.boolExpr boolop outs))
    (hnot : ∀ p k a out, Q (!p) k a out →
      Q p k (.boolExpr .notExpr [a]) (.boolExpr .notExpr [out]))
    (hexists : ∀ p k targetList relids quals out, Q p k quals out →
      Q p k (existsFrom targetList relids quals) (existsFrom targetList relids out))
    {node : Node α} (h : Cond leaf freeNot os node) : P.Mutates J E K Q cat os node := by
  induction h with
  | leaf ha => exact hleaf _ _ ha
  | null => exact fun c _ _ _ hJ _ => ⟨.null, c.ready, c.constraintToAdd, rfl, hJ, hnull _ _⟩
  | and _ _ ih =>
    exact mutates_boolExpr hclosed (by simp) ih fun _ _ _ _ => hbool _ _ _ _ _ _
      (by simp)
  | or _ _ ih =>
    exact mutates_boolExpr hclosed (by simp) ih fun _ _ _ _ => hbool _ _ _ _ _ _
      (by simp)
  | not _ _ ih => exact P.mutates_not ih fun p k out => hnot _ _ _ _
  | exist _ ih => exact Pass.mutates_existsFrom ih fun _ _ _ => hexists _ _ _ _ _ _

end

end Infed
