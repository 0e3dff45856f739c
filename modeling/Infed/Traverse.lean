import Infed.Path

/-! A run of `my_mutator`, atom by atom.  On the way to an atom of a condition the mutator goes
through connectives, sub-links, and queries, which leave its flags alone.  So a property of the
flags that each atom keeps, at the place where it stands, holds whenever the mutator comes to an
atom; and what the mutator makes of an atom stands at the same place of the result. -/

namespace Infed

variable {α : Type} {cat : Catalog}

/-! ### Places of atoms -/

def Node.isAtom : Node α → Bool
  | .opExpr _ _ => true
  | .nullTest _ _ => true
  | _ => false

/-- The nodes that a condition is built with. -/
def Node.isConnective : Node α → Bool
  | .boolExpr _ _ => true
  | .subLink _ _ _ => true
  | .query _ _ _ _ => true
  | _ => false

/-- The path goes through connectives only. -/
def through : List Nat → Node α → Bool
  | [], _ => true
  | i :: path, node => node.isConnective && (node.children[i]?).any (through path)

/-- The polarity at a path: NOT exchanges it. -/
def polarityAt : List Nat → Node α → Bool → Bool
  | [], _, p => p
  | i :: path, node, p =>
    (node.children[i]?).elim p fun child => polarityAt path child (innerPolarity p node)

theorem through_cons {i : Nat} {path : List Nat} {node child : Node α}
    (hchild : node.children[i]? = some child) :
    through (i :: path) node = (node.isConnective && through path child) := by
  rw [through, hchild, Option.any_some]

/-! ### What the mutator does to a connective -/

section

variable {P : Pass α} {node node' child : Node α} {c c' : ContextModifier α}

theorem mutateList_get {σ : Type} {f : Mutator α σ} {nodes outs : List (Node α)} {s s' : σ}
    (h : mutateList f nodes s = some (outs, s')) {i : Nat} (hchild : nodes[i]? = some child) :
    ∃ si out si', mutateList f (nodes.take i) s = some (outs.take i, si) ∧
      mutate f child si = some (out, si') ∧ outs[i]? = some out := by
  induction nodes generalizing outs s i with
  | nil => simp at hchild
  | cons a nodes ih =>
    simp only [mutateList, Option.bind_eq_bind, Option.bind_eq_some_iff, Option.some.injEq,
      Prod.mk.injEq] at h
    obtain ⟨⟨out, s1⟩, hhead, ⟨outs, s2⟩, htail, rfl, rfl⟩ := h
    cases i with
    | zero =>
      obtain rfl : a = child := by simpa using hchild
      exact ⟨s, out, s1, rfl, hhead, rfl⟩
    | succ i =>
      obtain ⟨si, outi, si', hleft, hat, hget⟩ := ih htail (by simpa using hchild)
      exact ⟨si, outi, si', mutateList_cons hhead hleft, hat, by simpa using hget⟩

/-- A connective is kept, with each of its children mutated in turn. -/
theorem Pass.myMutator_connective (hnode : node.isConnective = true)
    (hrun : P.myMutator node c = some (node', c')) :
    ∃ c0 outs c1, P.enterMutator node c = some c0 ∧
      P.myMutatorList node.children c0 = some (outs, c1) ∧ node'.children = outs := by
  rw [Pass.myMutator] at hrun
  cases node with
  | boolExpr boolop args =>
    cases boolop with
    | notExpr =>
      simp only [mutate, Pass.myMutatorStep, Option.bind_eq_bind, Option.bind_eq_some_iff] at hrun
      obtain ⟨⟨out, c2⟩, ⟨⟨outs, c1⟩, hlist, hout⟩, hres⟩ := hrun
      cases hout
      cases hres
      exact ⟨c.enterNot, outs, c1, rfl, hlist, rfl⟩
    | andExpr | orExpr =>
      simp only [mutate, Pass.myMutatorStep, Option.bind_eq_bind, Option.bind_eq_some_iff] at hrun
      obtain ⟨c0, hent, ⟨out, c2⟩, ⟨⟨outs, c1⟩, hlist, hout⟩, hres⟩ := hrun
      cases hout
      cases hres
      exact ⟨c0, outs, c1, hent, hlist, rfl⟩
  | subLink kind testexpr subselect =>
    simp only [mutate, Pass.myMutatorStep, Option.bind_eq_bind, Option.bind_eq_some_iff] at hrun
    obtain ⟨⟨test', c1⟩, htest, ⟨sub', c2⟩, hsub, hres⟩ := hrun
    cases hres
    exact ⟨c, [test', sub'], c2, rfl, mutateList_cons htest (mutateList_cons hsub rfl), rfl⟩
  | query targetList rtable fromlist quals =>
    simp only [mutate, Pass.myMutatorStep, Option.bind_eq_bind, Option.bind_eq_some_iff] at hrun
    obtain ⟨c0, hent, ⟨out, c2⟩, ⟨⟨quals', c1⟩, hquals, hout⟩, hres⟩ := hrun
    cases hout
    cases hres
    exact ⟨c0, [quals'], c1, hent, mutateList_cons hquals rfl, rfl⟩
  | null | var _ | const _ | param _ | opExpr _ _ | nullTest _ _ | rangeTblEntry _ _ _
  | targetEntry _ _ | list _ => cases hnode

/-- What the mutator makes of a node stands where the node stood. -/
theorem Pass.myMutator_at {path : List Nat} {target : Node α}
    (hrun : P.myMutator node c = some (node', c')) (hpath : nodeAt path node = some target)
    (hthrough : through path node = true) :
    ∃ m out m', P.mutatorAt path node c = some (target, m) ∧
      P.myMutator target m = some (out, m') ∧ nodeAt path node' = some out := by
  induction path generalizing node node' c c' with
  | nil =>
    cases hpath
    exact ⟨c, node', c', rfl, hrun, rfl⟩
  | cons i path ih =>
    obtain ⟨child, hchild, hrest⟩ := Option.bind_eq_some_iff.mp hpath
    rw [through_cons hchild, Bool.and_eq_true] at hthrough
    obtain ⟨c0, outs, c1, hent, hlist, rfl⟩ := Pass.myMutator_connective hthrough.1 hrun
    obtain ⟨ci, out, ci', hleft, hat, hget⟩ := mutateList_get hlist hchild
    obtain ⟨m, out', m', hm, hrun', hnode⟩ := ih hat hrest hthrough.2
    refine ⟨m, out', m', ?_, hrun', ?_⟩
    · simp [Pass.mutatorAt, Pass.myMutatorList, hent, hleft, hchild, hm]
    · rw [nodeAt, hget, Option.bind_some, hnode]

end

/-! ### The flags at each atom -/

section

variable (P : Pass α) (J : Bool → List (Node α) → Prop) (atom : Scopes → Node α → Prop)
  (cat : Catalog)

/-- The mutator comes to an atom over the tables `os`, at polarity `p`, with flags that satisfy
`J`. -/
structure Comes (os : Scopes) (p : Bool) (target : Node α) (m : ContextModifier α) :
    Prop where
  atom : atom os target
  resolves : m.currentTrueVar.Resolves cat os
  positive : m.positive = p
  flags : J m.ready m.constraintToAdd

/-- In the run on a node from `c`, the mutator returns from each atom that it comes to, with flags
that satisfy `J`. -/
def Pass.Keeps (os : Scopes) (node : Node α) (c : ContextModifier α) : Prop :=
  ∀ path target m, through path node = true → target.isAtom = true →
    P.mutatorAt path node c = some (target, m) →
    Comes J atom cat (scopesAt path node os) (polarityAt path node c.positive) target m →
    ∃ out ready checks, P.myMutator target m = some (out, m.advance ready checks 0 0) ∧
      J ready checks

/-- In the run on a node from `c`, the mutator comes to each atom with flags that satisfy `J`. -/
def Pass.Reaches (os : Scopes) (node : Node α) (c : ContextModifier α) : Prop :=
  ∀ path target m, through path node = true → target.isAtom = true →
    P.mutatorAt path node c = some (target, m) →
    Comes J atom cat (scopesAt path node os) (polarityAt path node c.positive) target m

/-- From every context in which the tables `os` are in scope and the flags satisfy `J`, if each atom
keeps `J` where the mutator comes to it, then the mutator returns and comes to each atom so. -/
def Pass.Traverses (os : Scopes) (node : Node α) : Prop :=
  ∀ (c : ContextModifier α) (rte : Nat), c.currentTrueVar.Resolves cat os →
    AtPart (fun _ => True) (queryScopes cat node c.currentTrueVar rte) (boolCount node) c →
    J c.ready c.constraintToAdd → P.Keeps J atom cat os node c →
    (∃ out ready checks, P.myMutator node c = some (out, c.advance ready checks
        (queryScopes cat node c.currentTrueVar rte).length (boolCount node)) ∧ J ready checks) ∧
      P.Reaches J atom cat os node c

end

section

variable {P : Pass α} {J : Bool → List (Node α) → Prop} {atom : Scopes → Node α → Prop}
  {os : Scopes} {node : Node α} {c c0 : ContextModifier α}

theorem Pass.Keeps.child (h : P.Keeps J atom cat os node c) (hnode : node.isConnective = true)
    (hent : P.enterMutator node c = some c0) (hp : c0.positive = innerPolarity c.positive node)
    {i : Nat} {child : Node α} {outs : List (Node α)} {ci : ContextModifier α}
    (hchild : node.children[i]? = some child)
    (hrun : P.myMutatorList (node.children.take i) c0 = some (outs, ci))
    (hpos : ci.positive = c0.positive) : P.Keeps J atom cat (innerScopes os node) child ci := by
  intro path target m hthrough hatom hm hcomes
  refine h (i :: path) target m ?_ hatom ?_ ?_
  · rw [through_cons hchild, hnode, hthrough, Bool.and_self]
  · simp [Pass.mutatorAt, hent, hrun, hchild, hm]
  · rw [scopesAt, polarityAt, hchild, Option.elim_some, Option.elim_some, ← hp, ← hpos]
    exact hcomes

theorem Pass.reaches_of_children (hnode : node.isConnective = true)
    (hent : P.enterMutator node c = some c0) (hp : c0.positive = innerPolarity c.positive node)
    (h : ∀ i child outs ci, node.children[i]? = some child →
      P.myMutatorList (node.children.take i) c0 = some (outs, ci) →
      ci.positive = c0.positive ∧ P.Reaches J atom cat (innerScopes os node) child ci) :
    P.Reaches J atom cat os node c := by
  intro path target m hthrough hatom hm
  cases path with
  | nil =>
    cases hm
    cases node <;> simp [Node.isAtom, Node.isConnective] at hatom hnode
  | cons i path =>
    simp only [Pass.mutatorAt, Option.bind_eq_bind, Option.bind_eq_some_iff] at hm
    obtain ⟨c0', hent', ⟨outs, ci⟩, hrun, child, hchild, hm⟩ := hm
    obtain rfl : c0 = c0' := Option.some.inj (hent.symm.trans hent')
    obtain ⟨hpos, hreaches⟩ := h i child outs ci hchild hrun
    rw [through_cons hchild, Bool.and_eq_true] at hthrough
    rw [scopesAt, polarityAt, hchild, Option.elim_some, Option.elim_some, ← hp, ← hpos]
    exact hreaches path target m hthrough.2 hatom hm

theorem Pass.reaches_null : P.Reaches J atom cat os .null c := by
  intro path target m hthrough hatom hm
  cases path with
  | nil =>
    cases hm
    cases hatom
  | cons i path => cases hthrough

/-- The arguments of a connective, in turn. -/
theorem Pass.traverses_list {args : List (Node α)}
    (hargs : ∀ a ∈ args, P.Traverses J atom cat os a) {c : ContextModifier α} {rte : Nat}
    (hs : c.currentTrueVar.Resolves cat os)
    (hat : AtPart (fun _ => True) (queryScopesList cat args c.currentTrueVar rte)
      (boolCountList args) c) (hJ : J c.ready c.constraintToAdd)
    (hkeeps : ∀ i child outs ci, args[i]? = some child →
      P.myMutatorList (args.take i) c = some (outs, ci) → ci.positive = c.positive →
      P.Keeps J atom cat os child ci) :
    (∃ outs ready checks, P.myMutatorList args c = some (outs, c.advance ready checks
        (queryScopesList cat args c.currentTrueVar rte).length (boolCountList args)) ∧
      J ready checks) ∧
    ∀ i child outs ci, args[i]? = some child →
      P.myMutatorList (args.take i) c = some (outs, ci) →
      ci.positive = c.positive ∧ P.Reaches J atom cat os child ci := by
  induction args generalizing c rte with
  | nil =>
    refine ⟨⟨[], c.ready, c.constraintToAdd, rfl, hJ⟩, fun i _ _ _ hchild => ?_⟩
    simp at hchild
  | cons a args ih =>
    obtain ⟨⟨out, r1, ks1, hrun1, hJ1⟩, hreach1⟩ := hargs a List.mem_cons_self c rte hs hat.left hJ
      (hkeeps 0 a [] c rfl rfl rfl)
    obtain ⟨⟨outs, r2, ks2, hrun2, hJ2⟩, hreach2⟩ := ih
      (fun b hb => hargs b (List.mem_cons_of_mem _ hb))
      (c := c.advance r1 ks1 (queryScopes cat a c.currentTrueVar rte).length (boolCount a)) hs
      (hat.right r1 ks1) hJ1 fun i child outs ci hchild hrun hpos =>
        hkeeps (i + 1) child _ ci hchild (mutateList_cons hrun1 hrun) hpos
    refine ⟨⟨out :: outs, r2, ks2, ?_, hJ2⟩, fun i child outs' ci hchild hrun => ?_⟩
    · rw [Pass.myMutatorList, mutateList_cons hrun1 hrun2, ContextModifier.advance_advance,
        queryScopesList, List.length_append]
      rfl
    · cases i with
      | zero =>
        cases hrun
        obtain rfl : a = child := by simpa using hchild
        exact ⟨rfl, hreach1⟩
      | succ i =>
        rw [Pass.myMutator] at hrun1
        simp only [List.take_succ_cons, Pass.myMutatorList, mutateList, hrun1, Option.bind_eq_bind,
          Option.bind_some, Option.bind_eq_some_iff] at hrun
        obtain ⟨⟨outs'', ci'⟩, hrest, hres⟩ := hrun
        cases hres
        exact hreach2 i child outs'' ci' (by simpa using hchild) hrest

theorem Pass.traverses_boolExpr {boolop : BoolExprType} (hop : boolop ≠ .notExpr)
    {args : List (Node α)} (hargs : ∀ a ∈ args, P.Traverses J atom cat os a) :
    P.Traverses J atom cat os (.boolExpr boolop args) := by
  intro c rte hs hat hJ hkeeps
  have hpolarity : innerPolarity c.positive (.boolExpr boolop args) = c.positive := by
    cases boolop <;> first | rfl | exact absurd rfl hop
  rw [boolCount_boolExpr hop, queryScopes_boolExpr] at hat ⊢
  obtain ⟨known, _, hent⟩ := hat.enterBoolExpr
  have hent' : P.enterMutator (.boolExpr boolop args) c = some { c with
      listOfNotNullInCurrent := c.listOfNotNullInCurrent ++ known
      whereIAm := c.whereIAm + 1 } := by
    cases boolop <;> first | exact hent | exact absurd rfl hop
  obtain ⟨⟨outs, r, ks, hrun, hJ'⟩, hreach⟩ := Pass.traverses_list hargs
    (c := { c with
      listOfNotNullInCurrent := c.listOfNotNullInCurrent ++ known, whereIAm := c.whereIAm + 1 }) hs
    (hat.inBoolExpr known) hJ
    fun i child outs ci hchild hrun hpos => hkeeps.child rfl hent' hpolarity.symm hchild hrun hpos
  exact ⟨⟨_, r, ks, P.myMutator_boolExpr hop hent hrun, hJ'⟩,
    Pass.reaches_of_children rfl hent' hpolarity.symm hreach⟩

theorem Pass.traverses_not {a : Node α} (ha : P.Traverses J atom cat os a) :
    P.Traverses J atom cat os (.boolExpr .notExpr [a]) := by
  intro c rte hs hat hJ hkeeps
  rw [boolCount_not, queryScopes_not] at hat ⊢
  obtain ⟨⟨out, r, ks, hrun, hJ'⟩, hreach⟩ := ha c.enterNot rte hs
    hat.inNot hJ
    (hkeeps.child (i := 0) rfl rfl rfl rfl rfl rfl)
  refine ⟨⟨_, r, ks, P.myMutator_not hrun, hJ'⟩, Pass.reaches_of_children rfl rfl rfl ?_⟩
  intro i child outs ci hchild hleft
  obtain rfl : i = 0 := by
    have := (List.getElem?_eq_some_iff.mp hchild).1
    simpa [Node.children] using this
  cases hleft
  obtain rfl : a = child := by simpa [Node.children] using hchild
  exact ⟨rfl, hreach⟩

/-- A query and its WHERE. -/
theorem Pass.traverses_selectFrom {targetList : List (Node α)} {relids : List Oid}
    {quals : Node α} (hquals : P.Traverses J atom cat (relids :: os) quals)
    {c : ContextModifier α} {scope : Scope} {rte : Nat} (hs : scope.Resolves cat os)
    (hat : AtPart (fun _ => True) (queryScopes cat (selectFrom targetList relids quals) scope rte)
      (boolCount quals) c) (hJ : J c.ready c.constraintToAdd)
    (hkeeps : P.Keeps J atom cat os (selectFrom targetList relids quals) c) :
    (∃ out ready checks, P.myMutator (selectFrom targetList relids quals) c =
        some (out, c.advance ready checks
          (queryScopes cat (selectFrom targetList relids quals) scope rte).length
          (boolCount quals)) ∧ J ready checks) ∧
      P.Reaches J atom cat os (selectFrom targetList relids quals) c := by
  have hinner : innerScopes os (selectFrom targetList relids quals) = relids :: os := by
    rw [selectFrom, innerScopes, map_relidOf_baseTable]
  rw [queryScopes_selectFrom] at hat ⊢
  have hent := hat.enterQuery
  obtain ⟨⟨out, r, ks, hrun, hJ'⟩, hreach⟩ := hquals
    { c with
      currentTrueVar := scope.enter cat rte relids
      whereIAmQuerry := c.whereIAmQuerry + 1 } (rte + relids.length) (hs.enter rte relids)
    hat.inQuery hJ
    (hinner ▸ hkeeps.child (i := 0) rfl hent rfl rfl rfl rfl)
  refine ⟨⟨_, r, ks, P.myMutator_query hent hrun, hJ'⟩, Pass.reaches_of_children rfl hent rfl ?_⟩
  intro i child outs ci hchild hleft
  obtain rfl : i = 0 := by
    have := (List.getElem?_eq_some_iff.mp hchild).1
    simpa [selectFrom, Node.children] using this
  cases hleft
  obtain rfl : quals = child := by simpa [selectFrom, Node.children] using hchild
  rw [hinner]
  exact ⟨rfl, hreach⟩

/-- A property of the flags goes through a condition from atom to atom. -/
theorem Pass.traverses_cond {freeNot : Prop}
    (hatom : ∀ os a, atom os a → a.isAtom = true) (h : Cond atom freeNot os node) :
    P.Traverses J atom cat os node := by
  induction h with
  | @leaf os a ha =>
    intro c rte hs _ hJ hkeeps
    have hcomes : Comes J atom cat os c.positive a c := ⟨ha, hs, rfl, hJ⟩
    obtain ⟨out, r, ks, hrun, hJ'⟩ := hkeeps [] a c rfl (hatom _ _ ha) rfl hcomes
    have hcount : queryScopes cat a c.currentTrueVar rte = [] ∧ boolCount a = 0 ∧
        a.isConnective = false := by
      have hat := hatom _ _ ha
      cases a <;> first | exact ⟨rfl, rfl, rfl⟩ | cases hat
    rw [hcount.1, hcount.2.1]
    refine ⟨⟨out, r, ks, hrun, hJ'⟩, fun path target m hthrough _ hm => ?_⟩
    cases path with
    | nil =>
      cases hm
      exact hcomes
    | cons i path =>
      rw [through, hcount.2.2] at hthrough
      cases hthrough
  | null => exact fun c rte _ _ hJ _ =>
      ⟨⟨.null, c.ready, c.constraintToAdd, rfl, hJ⟩, Pass.reaches_null⟩
  | and _ _ ih => exact Pass.traverses_boolExpr (by simp) ih
  | or _ _ ih => exact Pass.traverses_boolExpr (by simp) ih
  | not _ _ ih => exact Pass.traverses_not ih
  | @exist os targetList relids quals _ ih =>
    intro c rte hs hat hJ hkeeps
    rw [boolCount_existsFrom, queryScopes_subselect] at hat ⊢
    have hnull : P.myMutatorList [.null] c = some ([.null], c) := rfl
    obtain ⟨⟨out, r, ks, hrun, hJ'⟩, hreach⟩ := Pass.traverses_selectFrom ih hs hat hJ
      (hkeeps.child (i := 1) rfl rfl rfl rfl hnull rfl)
    refine ⟨⟨_, r, ks, P.myMutator_exists hrun, hJ'⟩, Pass.reaches_of_children rfl rfl rfl ?_⟩
    intro i child outs ci hchild hleft
    rcases i with _ | _ | i
    · cases hleft
      cases hchild
      exact ⟨rfl, Pass.reaches_null⟩
    · cases hleft
      cases hchild
      exact ⟨rfl, hreach⟩
    · simp [existsFrom, Node.children] at hchild

end

/-! ### Whole queries -/

/-- A context for the query as `make_context_modifier` makes it, with any not-null lists. -/
structure Fresh (cat : Catalog) (q : Node α) (c : ContextModifier α) : Prop where
  ready : c.ready = false
  checks : c.constraintToAdd = []
  trueVars : c.trueVars = queryScopes cat q .root 0
  lengthTrue : c.listListTrue.length = boolCount q
  lengthFalse : c.listListFalse.length = boolCount q
  whereIAm : c.whereIAm = 0
  whereIAmQuerry : c.whereIAmQuerry = 0

theorem Prepared.fresh {q : Node α} {positive : Bool} {c : ContextModifier α}
    (h : Prepared cat q positive c) : Fresh cat q c :=
  ⟨h.ready, h.checks, h.trueVars, h.lengthTrue, h.atStart.lengths.trans h.lengthTrue, h.whereIAm,
    h.whereIAmQuerry⟩

/-- The mutator returns on the query, and comes to each atom with flags that satisfy `J`, if they do
at the start and each atom keeps `J` where the mutator comes to it. -/
theorem Fresh.traverses {P : Pass α} {J : Bool → List (Node α) → Prop}
    {atom : Scopes → Node α → Prop} {freeNot : Prop} {targetList : List (Node α)}
    {relids : List Oid} {quals : Node α} {c : ContextModifier α}
    (hc : Fresh cat (selectFrom targetList relids quals) c)
    (h : Cond atom freeNot [relids] quals) (hatom : ∀ os a, atom os a → a.isAtom = true)
    (hJ : J false [])
    (hkeeps : P.Keeps J atom cat [] (selectFrom targetList relids quals) c) :
    (∃ q' c', P.myMutator (selectFrom targetList relids quals) c = some (q', c')) ∧
      P.Reaches J atom cat [] (selectFrom targetList relids quals) c := by
  have hat := AtPart.start hc.trueVars hc.lengthTrue hc.lengthFalse hc.whereIAm hc.whereIAmQuerry
  rw [boolCount_selectFrom] at hat
  have hflags : J c.ready c.constraintToAdd := by
    rw [hc.ready, hc.checks]
    exact hJ
  obtain ⟨⟨q', r, ks, hrun, _⟩, hreaches⟩ := Pass.traverses_selectFrom
    (Pass.traverses_cond hatom h) (Scope.resolves_root cat) hat hflags hkeeps
  exact ⟨⟨q', _, hrun⟩, hreaches⟩

end Infed
