import Infed.CertainAnswer

/-! Sub-selects in FROM.  Where the walker enters their range tables, it gives the base tables that
it meets there to the query around them, and neither traversal looks at anything else in them.  Both
traversals therefore treat a query like the one with the base tables of its FROM in their order, at
any depth, in the place of the FROM. -/

namespace Infed

variable {α : Type} {cat : Catalog} {P : Pass α}

/-! ### Flat queries -/

mutual

/-- The entries of a FROM entry that the walker counts: for a sub-select, those of its FROM. -/
def flatEntry : Node α → List (Node α)
  | .rangeTblEntry .rteSubquery _ (.query _ rtable _ _) => flatRtable rtable
  | entry => [entry]

def flatRtable : List (Node α) → List (Node α)
  | [] => []
  | entry :: rtable => flatEntry entry ++ flatRtable rtable

end

mutual

/-- The node with a flat FROM in each of its queries. -/
def flatFrom : Node α → Node α
  | .opExpr opno args => .opExpr opno (flatFromList args)
  | .boolExpr boolop args => .boolExpr boolop (flatFromList args)
  | .nullTest test arg => .nullTest test (flatFrom arg)
  | .subLink kind testexpr subselect => .subLink kind (flatFrom testexpr) (flatFrom subselect)
  | .query targetList rtable _ quals =>
    .query targetList (flatRtable rtable) (List.range' 1 (flatRtable rtable).length)
      (flatFrom quals)
  | .targetEntry expr resno => .targetEntry (flatFrom expr) resno
  | .list elems => .list (flatFromList elems)
  | node => node

def flatFromList : List (Node α) → List (Node α)
  | [] => []
  | node :: nodes => flatFrom node :: flatFromList nodes

end

theorem flatFromList_eq_map (nodes : List (Node α)) : flatFromList nodes = nodes.map flatFrom := by
  induction nodes with
  | nil => rfl
  | cons node nodes ih => rw [flatFromList, ih, List.map_cons]

theorem flatFromList_append (nodes nodes' : List (Node α)) :
    flatFromList (nodes ++ nodes') = flatFromList nodes ++ flatFromList nodes' := by
  rw [flatFromList_eq_map, flatFromList_eq_map, flatFromList_eq_map, List.map_append]

/-! ### The walker -/

theorem Pass.myWalkerList_append (P : Pass α) (cat : Catalog) (nodes nodes' : List (Node α))
    (c : ContextWalkerSetConstraint) :
    P.myWalkerList cat (nodes ++ nodes') c =
      (P.myWalkerList cat nodes c).bind (P.myWalkerList cat nodes') := by
  induction nodes generalizing c with
  | nil => rfl
  | cons node nodes ih =>
    simp only [List.cons_append, Pass.myWalkerList, Option.bind_eq_bind, Option.bind_assoc, ih]

theorem Pass.myWalkerList_singleton (P : Pass α) (cat : Catalog) (node : Node α)
    (c : ContextWalkerSetConstraint) :
    P.myWalkerList cat [node] c = P.myWalker cat node c := by
  simp [Pass.myWalkerList]

mutual

theorem Pass.myWalkerList_flatEntry (hP : P.entersSubquery = true) :
    ∀ (entry : Node α) (c : ContextWalkerSetConstraint),
      P.myWalkerList cat (flatEntry entry) c = P.myWalker cat entry c
  | .rangeTblEntry .rteSubquery _ (.query _ rtable _ _), c => by
    rw [flatEntry, Pass.myWalker, if_pos hP]
    exact Pass.myWalkerList_flatRtable hP rtable c
  | .rangeTblEntry .rteRelation _ _, c => P.myWalkerList_singleton cat _ c
  | .rangeTblEntry .rteSubquery _ .null, c
  | .rangeTblEntry .rteSubquery _ (.var _), c
  | .rangeTblEntry .rteSubquery _ (.const _), c
  | .rangeTblEntry .rteSubquery _ (.param _), c
  | .rangeTblEntry .rteSubquery _ (.opExpr _ _), c
  | .rangeTblEntry .rteSubquery _ (.boolExpr _ _), c
  | .rangeTblEntry .rteSubquery _ (.nullTest _ _), c
  | .rangeTblEntry .rteSubquery _ (.subLink _ _ _), c
  | .rangeTblEntry .rteSubquery _ (.targetEntry _ _), c
  | .rangeTblEntry .rteSubquery _ (.list _), c
  | .rangeTblEntry .rteSubquery _ (.rangeTblEntry _ _ _), c => P.myWalkerList_singleton cat _ c
  | .null, c | .var _, c | .const _, c | .param _, c | .opExpr _ _, c
  | .boolExpr _ _, c | .nullTest _ _, c | .subLink _ _ _, c | .query _ _ _ _, c
  | .targetEntry _ _, c | .list _, c => P.myWalkerList_singleton cat _ c

theorem Pass.myWalkerList_flatRtable (hP : P.entersSubquery = true) :
    ∀ (rtable : List (Node α)) (c : ContextWalkerSetConstraint),
      P.myWalkerList cat (flatRtable rtable) c = P.myWalkerList cat rtable c
  | [], _ => rfl
  | entry :: rtable, c => by
    rw [flatRtable, Pass.myWalkerList_append, Pass.myWalkerList_flatEntry hP entry,
      Pass.myWalkerList]
    exact congrArg _ (funext (Pass.myWalkerList_flatRtable hP rtable))

end

mutual

/-- The walker does the same on a node and on the flat one. -/
theorem Pass.myWalker_flatFrom (hP : P.entersSubquery = true) :
    ∀ (node : Node α) (c : ContextWalkerSetConstraint),
      P.myWalker cat (flatFrom node) c = P.myWalker cat node c
  | .boolExpr boolop args, c => by
    have hargs := Pass.myWalkerList_flatFrom hP args c.openBoolExpr
    have hlength : (flatFromList args).length = args.length := by
      rw [flatFromList_eq_map, List.length_map]
    have hempty : (flatFromList args).isEmpty = args.isEmpty := by
      rw [flatFromList_eq_map, List.isEmpty_map]
    rw [flatFrom, Pass.myWalker, Pass.myWalker, hargs, hlength, hempty]
  | .opExpr opno args, c => by
    have hargs := Pass.myWalkerList_flatFrom hP args (P.openOpExpr opno c)
    rw [flatFrom, Pass.myWalker, Pass.myWalker, hargs]
  | .query targetList rtable fromlist quals, c => by
    rw [flatFrom, Pass.myWalker, Pass.myWalker, Pass.myWalkerList_flatRtable hP]
    simp only [Pass.myWalker_flatFrom hP quals]
  | .nullTest test arg, c => by
    rw [flatFrom, Pass.myWalker, Pass.myWalker]
    exact Pass.myWalker_flatFrom hP arg c
  | .subLink kind testexpr subselect, c => by
    rw [flatFrom, Pass.myWalker, Pass.myWalker]
    simp only [Pass.myWalker_flatFrom hP testexpr, Pass.myWalker_flatFrom hP subselect]
  | .targetEntry expr resno, c => by
    rw [flatFrom, Pass.myWalker, Pass.myWalker]
    exact Pass.myWalker_flatFrom hP expr c
  | .list elems, c => by
    rw [flatFrom, Pass.myWalker, Pass.myWalker]
    exact Pass.myWalkerList_flatFrom hP elems c
  | .null, c | .var _, c | .const _, c | .param _, c | .rangeTblEntry _ _ _, c => rfl

theorem Pass.myWalkerList_flatFrom (hP : P.entersSubquery = true) :
    ∀ (nodes : List (Node α)) (c : ContextWalkerSetConstraint),
      P.myWalkerList cat (flatFromList nodes) c = P.myWalkerList cat nodes c
  | [], _ => rfl
  | node :: nodes, c => by
    rw [flatFromList, Pass.myWalkerList, Pass.myWalkerList, Pass.myWalker_flatFrom hP node]
    exact congrArg _ (funext (Pass.myWalkerList_flatFrom hP nodes))

end

/-! ### The mutator -/

/-- The checks of the pass are flat. -/
def Pass.FlatChecks (P : Pass α) : Prop :=
  ∀ positive known v, ∀ k ∈ P.check positive known v, flatFrom k = k

/-- The checks that are pending are flat. -/
def FlatPending (c : ContextModifier α) : Prop := ∀ k ∈ c.constraintToAdd, flatFrom k = k

section

variable {β γ δ : Type} {flat : β → β} {flatγ : γ → γ} {flatδ : δ → δ}

/-- The traversal `t'` does what `t` does, and makes the result flat. -/
def Flattens (flat : β → β) (t t' : ContextModifier α → Option (β × ContextModifier α)) : Prop :=
  ∀ c, FlatPending c → t' c = (t c).map (fun r => (flat r.1, r.2)) ∧
    ∀ out c', t c = some (out, c') → FlatPending c'

theorem flattens_none : Flattens flat (fun _ : ContextModifier α => none) fun _ => none :=
  fun _ _ => ⟨rfl, fun _ _ hrun => by cases hrun⟩

theorem flattens_some {x y : β} (h : flat x = y) :
    Flattens flat (fun c : ContextModifier α => some (x, c)) fun c => some (y, c) := by
  refine fun c hc => ⟨by rw [Option.map_some, h], fun _ _ heq => ?_⟩
  cases heq
  exact hc

variable {t t' : ContextModifier α → Option (β × ContextModifier α)}
  {u u' : ContextModifier α → Option (γ × ContextModifier α)}

/-- A traversal, and what is then made of the result. -/
theorem Flattens.then (h : Flattens flat t t') (make make' : β → δ)
    (hmake : ∀ x, flatδ (make x) = make' (flat x)) :
    Flattens flatδ (fun c => (t c).bind fun r => some (make r.1, r.2))
      fun c => (t' c).bind fun r => some (make' r.1, r.2) := by
  intro c hc
  dsimp only
  obtain ⟨heq, hpending⟩ := h c hc
  rw [heq]
  cases hrun : t c with
  | none => exact ⟨rfl, fun _ _ hrun => by cases hrun⟩
  | some r =>
    refine ⟨?_, fun _ _ heq => ?_⟩
    · simp only [Option.map_some, Option.bind_some, hmake]
    · cases heq
      exact hpending r.1 r.2 hrun

/-- One traversal after the other, and what is then made of the results. -/
theorem Flattens.after (h : Flattens flat t t') (hu : Flattens flatγ u u') (make make' : β → γ → δ)
    (hmake : ∀ x y, flatδ (make x y) = make' (flat x) (flatγ y)) :
    Flattens flatδ (fun c => (t c).bind fun r => (u r.2).bind fun q => some (make r.1 q.1, q.2))
      fun c => (t' c).bind fun r => (u' r.2).bind fun q => some (make' r.1 q.1, q.2) := by
  intro c hc
  dsimp only
  obtain ⟨heq, hpending⟩ := h c hc
  rw [heq]
  cases hrun : t c with
  | none => exact ⟨rfl, fun _ _ hrun => by cases hrun⟩
  | some r =>
    exact (hu.then (make r.1) (make' (flat r.1)) (hmake r.1)) r.2 (hpending r.1 r.2 hrun)

/-- A traversal from another context, and what is then done to the context. -/
theorem Flattens.between (h : Flattens flat t t')
    (enter : ContextModifier α → Option (ContextModifier α))
    (leave : ContextModifier α → ContextModifier α → ContextModifier α)
    (henter : ∀ c c0, FlatPending c → enter c = some c0 → FlatPending c0)
    (hleave : ∀ c c', FlatPending c' → FlatPending (leave c c')) :
    Flattens flat (fun c => (enter c).bind fun c0 => (t c0).bind fun r => some (r.1, leave c r.2))
      fun c => (enter c).bind fun c0 => (t' c0).bind fun r => some (r.1, leave c r.2) := by
  intro c hc
  dsimp only
  cases hent : enter c with
  | none => exact ⟨rfl, fun _ _ hrun => by cases hrun⟩
  | some c0 =>
    obtain ⟨heq, hpending⟩ := h c0 (henter c c0 hc hent)
    simp only [Option.bind_some, heq]
    cases hrun : t c0 with
    | none => exact ⟨rfl, fun _ _ hrun => by cases hrun⟩
    | some r =>
      refine ⟨rfl, fun out c' heq => ?_⟩
      cases heq
      exact hleave c r.2 (hpending r.1 r.2 hrun)

end

section

variable {t t' : ContextModifier α → Option (Node α × ContextModifier α)}

theorem Flattens.withOpno (h : Flattens flatFrom t t') (opno : Oid) :
    Flattens flatFrom (withOpno opno t) (withOpno opno t') := by
  intro c hc
  obtain ⟨heq, hpending⟩ := h c hc
  unfold Infed.withOpno
  rw [heq]
  cases hrun : t c with
  | none => exact ⟨rfl, fun _ _ hrun => by cases hrun⟩
  | some r =>
    obtain ⟨out, c1⟩ := r
    have hc1 := hpending out c1 hrun
    cases out <;> exact ⟨rfl, fun _ _ heq => by cases heq; exact hc1⟩

theorem Flattens.compare (h : Flattens flatFrom t t') (opno : Oid) :
    Flattens flatFrom (P.compare opno t) (P.compare opno t') := by
  intro c hc
  have hent : FlatPending (P.enterOpExpr opno c) := by
    unfold Pass.enterOpExpr
    split
    · exact hc
    · exact hc
  obtain ⟨heq, hpending⟩ := h _ hent
  unfold Pass.compare
  rw [heq]
  cases hrun : t (P.enterOpExpr opno c) with
  | none => exact ⟨rfl, fun _ _ hrun => by cases hrun⟩
  | some r =>
    obtain ⟨result, c1⟩ := r
    have hc1 := hpending result c1 hrun
    simp only [Option.map_some, Option.bind_eq_bind, Option.bind_some]
    cases hchecks : c1.constraintToAdd with
    | nil => exact ⟨rfl, fun _ _ heq => by cases heq; exact hc1⟩
    | cons k checks =>
      cases P.connective c1.positive with
      | none => exact h c1 hc1
      | some boolop =>
        have hflat : flatFromList (k :: checks) = k :: checks := by
          rw [flatFromList_eq_map]
          exact (List.map_congr_left fun k' hk' => hc1 k' (hchecks ▸ hk')).trans (List.map_id _)
        refine ⟨?_, fun _ _ heq => ?_⟩
        · simp only [Option.map_some, flatFrom, flatFromList_append, hflat]
          rfl
        · cases heq
          exact fun k hk => by cases hk

/-- The two comparisons of an operator that is taken apart. -/
theorem Flattens.takeApart (h : Flattens flatFrom t t') {opno strict : Oid}
    (hstrict : P.strictPart opno = some strict) (args : List (Node α)) :
    Flattens flatFrom (P.myMutatorStep (.opExpr opno args) t)
      (P.myMutatorStep (.opExpr opno (flatFromList args)) t') := by
  have hequa := (h.withOpno 96).compare (P := P) 96
  have hstric := (h.withOpno strict).compare (P := P) strict
  have hparts : Flattens flatFrom _ _ := hequa.after hstric
    (fun equa stric => .boolExpr .orExpr [equa, stric])
    (fun equa stric => .boolExpr .orExpr [equa, stric]) fun _ _ => rfl
  intro c hc
  simp only [Pass.myMutatorStep, hstrict]
  exact hparts c hc

theorem Pass.flatPending_enterVar (hP : P.FlatChecks) {v : Var} {c c0 : ContextModifier α}
    (hc : FlatPending c) (hent : P.enterVar v c = some c0) : FlatPending c0 := by
  unfold Pass.enterVar at hent
  split at hent
  · obtain ⟨_, _, hent⟩ := Option.bind_eq_some_iff.mp hent
    cases hent
    exact List.forall_mem_append.mpr ⟨hc, hP _ _ v⟩
  · cases hent
    exact hc

/-- One call of the mutator. -/
theorem Pass.flattens_step (hP : P.FlatChecks) (h : Flattens flatFrom t t') (node : Node α) :
    Flattens flatFrom (P.myMutatorStep node t) (P.myMutatorStep (flatFrom node) t') := by
  cases node with
  | null => exact flattens_some rfl
  | var v =>
    intro c hc
    simp only [flatFrom, Pass.myMutatorStep]
    cases hent : P.enterVar v c with
    | none => exact ⟨rfl, fun _ _ hrun => by cases hrun⟩
    | some c0 => exact h c0 (P.flatPending_enterVar hP hc hent)
  | boolExpr boolop args =>
    cases boolop with
    | notExpr =>
      exact h.between (fun c => some c.enterNot)
        (fun _ c' => { c' with positive := !c'.positive })
        (fun c c0 hc hent => by cases hent; exact hc) fun _ _ hc' => hc'
    | andExpr | orExpr =>
      refine h.between ContextModifier.enterBoolExpr
        (fun c c' => { c' with listOfNotNullInCurrent := c.listOfNotNullInCurrent })
        (fun c c0 hc hent => ?_) fun _ _ hc' => hc'
      obtain ⟨_, _, hent⟩ := Option.bind_eq_some_iff.mp hent
      cases hent
      exact hc
  | query targetList rtable fromlist quals =>
    refine h.between ContextModifier.enterQuery
      (fun c c' => { c' with currentTrueVar := c.currentTrueVar })
      (fun c c0 hc hent => ?_) fun _ _ hc' => hc'
    obtain ⟨_, _, hent⟩ := Option.bind_eq_some_iff.mp hent
    cases hent
    exact hc
  | opExpr opno args =>
    cases hstrict : P.strictPart opno with
    | none =>
      intro c hc
      simp only [flatFrom, Pass.myMutatorStep, hstrict]
      exact h.compare opno c hc
    | some strict => exact h.takeApart hstrict args
  | const _ | param _ | nullTest _ _ | subLink _ _ _ | rangeTblEntry _ _ _ | targetEntry _ _
  | list _ => exact h

end

mutual

/-- On the flat node the mutator returns what it returns on the node, made flat. -/
theorem Pass.flattens_myMutator (hP : P.FlatChecks) :
    ∀ node : Node α, Flattens flatFrom (P.myMutator node) (P.myMutator (flatFrom node))
  | .null => flattens_some rfl
  | .var v => P.flattens_step hP (flattens_some rfl) (.var v)
  | .const value => P.flattens_step hP (flattens_some rfl) (.const value)
  | .param i => P.flattens_step hP (flattens_some rfl) (.param i)
  | .rangeTblEntry kind relid subquery =>
    P.flattens_step hP flattens_none (.rangeTblEntry kind relid subquery)
  | .opExpr opno args =>
    P.flattens_step hP ((Pass.flattens_myMutatorList hP args).then (Node.opExpr opno)
      (Node.opExpr opno) fun _ => rfl) (.opExpr opno args)
  | .boolExpr boolop args =>
    P.flattens_step hP ((Pass.flattens_myMutatorList hP args).then (Node.boolExpr boolop)
      (Node.boolExpr boolop) fun _ => rfl) (.boolExpr boolop args)
  | .list elems =>
    P.flattens_step hP ((Pass.flattens_myMutatorList hP elems).then Node.list Node.list
      fun _ => rfl) (.list elems)
  | .nullTest test arg =>
    P.flattens_step hP ((Pass.flattens_myMutator hP arg).then (Node.nullTest test)
      (Node.nullTest test) fun _ => rfl) (.nullTest test arg)
  | .targetEntry expr resno =>
    P.flattens_step hP ((Pass.flattens_myMutator hP expr).then (Node.targetEntry · resno)
      (Node.targetEntry · resno) fun _ => rfl) (.targetEntry expr resno)
  | .query targetList rtable fromlist quals =>
    P.flattens_step hP ((Pass.flattens_myMutator hP quals).then
      (Node.query targetList rtable fromlist)
      (Node.query targetList (flatRtable rtable) (List.range' 1 (flatRtable rtable).length))
      fun _ => rfl) (.query targetList rtable fromlist quals)
  | .subLink kind testexpr subselect =>
    P.flattens_step hP ((Pass.flattens_myMutator hP testexpr).after
      (Pass.flattens_myMutator hP subselect) (Node.subLink kind) (Node.subLink kind)
      fun _ _ => rfl) (.subLink kind testexpr subselect)

theorem Pass.flattens_myMutatorList (hP : P.FlatChecks) : ∀ nodes : List (Node α),
    Flattens flatFromList (P.myMutatorList nodes) (P.myMutatorList (flatFromList nodes))
  | [] => flattens_some rfl
  | node :: nodes =>
    (Pass.flattens_myMutator hP node).after (Pass.flattens_myMutatorList hP nodes) List.cons
      List.cons fun _ _ => rfl

end

end Infed
