import Infed.NotNullSound
import Infed.Traverse

/-! From the atoms of a condition to the condition.  A run of `my_mutator` changes its flags and
counters only, and it replaces atoms where they stand.  So what the rewriting of a condition is
worth follows from what the rewriting of each atom is worth, in the context in which the mutator
comes to it. -/

namespace Infed

variable {α : Type} {cat : Catalog}

/-! ### The frame of a run -/

/-- The contexts differ in flags and counters only. -/
structure Framed (c c' : ContextModifier α) : Prop where
  positive : c'.positive = c.positive
  trueVars : c'.trueVars = c.trueVars
  currentTrueVar : c'.currentTrueVar = c.currentTrueVar
  known : c'.listOfNotNullInCurrent = c.listOfNotNullInCurrent
  listListTrue : c'.listListTrue = c.listListTrue
  listListFalse : c'.listListFalse = c.listListFalse

namespace Framed

variable {c c' c'' : ContextModifier α}

theorem refl (c : ContextModifier α) : Framed c c := ⟨rfl, rfl, rfl, rfl, rfl, rfl⟩

theorem trans (h : Framed c c') (h' : Framed c' c'') : Framed c c'' :=
  ⟨h'.positive.trans h.positive, h'.trueVars.trans h.trueVars,
    h'.currentTrueVar.trans h.currentTrueVar, h'.known.trans h.known,
    h'.listListTrue.trans h.listListTrue, h'.listListFalse.trans h.listListFalse⟩

end Framed

/-- Every run of a traversal is framed. -/
def Frames (run : ContextModifier α → Option (Node α × ContextModifier α)) : Prop :=
  ∀ c out c', run c = some (out, c') → Framed c c'

section

variable {P : Pass α}

theorem Pass.framed_enterOpExpr (opno : Oid) (c : ContextModifier α) :
    Framed c (P.enterOpExpr opno c) := by
  unfold Pass.enterOpExpr
  split <;> exact ⟨rfl, rfl, rfl, rfl, rfl, rfl⟩

theorem frames_withOpno {opno : Oid}
    {run : ContextModifier α → Option (Node α × ContextModifier α)} (h : Frames run) :
    Frames (withOpno opno run) := by
  intro c out c' hrun
  simp only [withOpno, Option.bind_eq_bind, Option.bind_eq_some_iff] at hrun
  obtain ⟨⟨out1, c1⟩, hrun1, hrun⟩ := hrun
  have hc' : c' = c1 := by
    split at hrun
    · next heq =>
      cases heq
      cases hrun
      rfl
    · cases hrun
      rfl
  rw [hc']
  exact h c out1 c1 hrun1

theorem Pass.frames_compare {opno : Oid}
    {run : ContextModifier α → Option (Node α × ContextModifier α)} (h : Frames run) :
    Frames (P.compare opno run) := by
  intro c out c' hrun
  simp only [Pass.compare, Option.bind_eq_bind, Option.bind_eq_some_iff] at hrun
  obtain ⟨⟨out1, c1⟩, hrun1, hrun⟩ := hrun
  have hframed := (P.framed_enterOpExpr opno c).trans (h _ _ _ hrun1)
  split at hrun
  · cases hrun
    exact hframed
  · split at hrun
    · cases hrun
      exact hframed.trans ⟨rfl, rfl, rfl, rfl, rfl, rfl⟩
    · exact hframed.trans (h _ _ _ hrun)

theorem Pass.frames_opExpr (opno : Oid) (args : List (Node α))
    {run : ContextModifier α → Option (Node α × ContextModifier α)} (h : Frames run) :
    Frames (P.myMutatorStep (.opExpr opno args) run) := by
  intro c out c' hrun
  simp only [Pass.myMutatorStep] at hrun
  split at hrun
  · exact P.frames_compare h _ _ _ hrun
  · simp only [Option.bind_eq_bind, Option.bind_eq_some_iff] at hrun
    obtain ⟨⟨equa, c1⟩, hequa, ⟨stric, c2⟩, hstric, hres⟩ := hrun
    cases hres
    exact (P.frames_compare (frames_withOpno h) _ _ _ hequa).trans
      (P.frames_compare (frames_withOpno h) _ _ _ hstric)

theorem Pass.frames_boolExpr (boolop : BoolExprType) (args : List (Node α))
    {run : ContextModifier α → Option (Node α × ContextModifier α)} (h : Frames run) :
    Frames (P.myMutatorStep (.boolExpr boolop args) run) := by
  intro c out c' hrun
  cases boolop with
  | notExpr =>
    simp only [Pass.myMutatorStep, Option.bind_eq_bind, Option.bind_eq_some_iff] at hrun
    obtain ⟨⟨out1, c1⟩, hrun1, hres⟩ := hrun
    cases hres
    obtain ⟨hp, h1, h2, h3, h4, h5⟩ := h _ _ _ hrun1
    exact ⟨by simp [hp, ContextModifier.enterNot], h1, h2, h3, h4, h5⟩
  | andExpr | orExpr =>
    simp only [Pass.myMutatorStep, ContextModifier.enterBoolExpr, Option.bind_eq_bind,
      Option.bind_eq_some_iff, Option.some.injEq] at hrun
    obtain ⟨c0, ⟨known, _, rfl⟩, ⟨out1, c1⟩, hrun1, hres⟩ := hrun
    cases hres
    obtain ⟨h0, h1, h2, _, h4, h5⟩ := h _ _ _ hrun1
    exact ⟨h0, h1, h2, rfl, h4, h5⟩

theorem Pass.frames_query (targetList rtable : List (Node α)) (fromlist : List Nat)
    (quals : Node α) {run : ContextModifier α → Option (Node α × ContextModifier α)}
    (h : Frames run) : Frames (P.myMutatorStep (.query targetList rtable fromlist quals) run) := by
  intro c out c' hrun
  simp only [Pass.myMutatorStep, ContextModifier.enterQuery, Option.bind_eq_bind,
    Option.bind_eq_some_iff, Option.some.injEq] at hrun
  obtain ⟨c0, ⟨scope, _, rfl⟩, ⟨out1, c1⟩, hrun1, hres⟩ := hrun
  cases hres
  obtain ⟨h0, h1, _, h3, h4, h5⟩ := h _ _ _ hrun1
  exact ⟨h0, h1, rfl, h3, h4, h5⟩

theorem Pass.framed_enterVar {v : Var} {c c' : ContextModifier α}
    (h : P.enterVar v c = some c') : Framed c c' := by
  unfold Pass.enterVar at h
  split at h
  · simp only [Option.bind_eq_bind, Option.bind_eq_some_iff, Option.some.injEq] at h
    obtain ⟨_, _, rfl⟩ := h
    exact ⟨rfl, rfl, rfl, rfl, rfl, rfl⟩
  · cases h
    exact .refl c

theorem Pass.frames_then {node : Node α} (make : Node α → Node α)
    (h : Frames (P.myMutator node)) :
    Frames (fun c => do
      let (node, c) ← mutate P.myMutatorStep node c
      some (make node, c)) := by
  intro c out c' hrun
  simp only [Option.bind_eq_bind, Option.bind_eq_some_iff] at hrun
  obtain ⟨⟨out1, c1⟩, hrun1, hres⟩ := hrun
  cases hres
  exact h _ _ _ hrun1

mutual

/-- A run changes flags and counters only. -/
theorem Pass.frames (P : Pass α) : ∀ node : Node α, Frames (P.myMutator node)
  | .null => fun c _ _ h => by
    cases h
    exact .refl c
  | .const _ | .param _ => fun c _ _ h => by
    cases h
    exact .refl c
  | .var v => fun c out c' h => by
    simp only [Pass.myMutator, mutate, Pass.myMutatorStep, Option.bind_eq_bind,
      Option.bind_eq_some_iff] at h
    obtain ⟨c1, hent, hres⟩ := h
    cases hres
    exact P.framed_enterVar hent
  | .rangeTblEntry _ _ _ => fun _ _ _ h => by cases h
  | .opExpr opno args => P.frames_opExpr opno args (P.framesList (Node.opExpr opno) args)
  | .boolExpr boolop args =>
    P.frames_boolExpr boolop args (P.framesList (Node.boolExpr boolop) args)
  | .list elems => P.framesList Node.list elems
  | .nullTest test arg => P.frames_then (.nullTest test) (P.frames arg)
  | .targetEntry expr resno => P.frames_then (.targetEntry · resno) (P.frames expr)
  | .query targetList rtable fromlist quals =>
    P.frames_query targetList rtable fromlist quals
      (P.frames_then (.query targetList rtable fromlist) (P.frames quals))
  | .subLink kind testexpr subselect => fun c out c' h => by
    simp only [Pass.myMutator, mutate, Pass.myMutatorStep, Option.bind_eq_bind,
      Option.bind_eq_some_iff] at h
    obtain ⟨⟨test', c1⟩, htest, ⟨sub', c2⟩, hsub, hres⟩ := h
    cases hres
    exact (P.frames testexpr _ _ _ htest).trans (P.frames subselect _ _ _ hsub)

/-- A run over the elements of a list, whatever is then made of the results. -/
theorem Pass.framesList (P : Pass α) (make : List (Node α) → Node α) :
    ∀ nodes : List (Node α), Frames (fun c => do
      let (nodes, c) ← mutateList P.myMutatorStep nodes c
      some (make nodes, c))
  | [] => fun c _ _ h => by
    cases h
    exact .refl c
  | node :: nodes => fun c out c' h => by
    simp only [mutateList, Option.bind_eq_bind, Option.bind_eq_some_iff] at h
    obtain ⟨⟨outs, c2⟩, ⟨⟨out1, c1⟩, hhead, ⟨outs', c3⟩, htail, hlist⟩, hres⟩ := h
    cases hlist
    cases hres
    have hrest := P.framesList .list nodes c1 (.list outs') c3 (by simp [htail])
    exact (P.frames node _ _ _ hhead).trans hrest

end

theorem Pass.framed_myMutatorList {nodes outs : List (Node α)} {c c' : ContextModifier α}
    (h : P.myMutatorList nodes c = some (outs, c')) : Framed c c' := by
  rw [Pass.myMutatorList] at h
  exact P.framesList .list nodes c (.list outs) c' (by simp [h])

end

/-! ### What is known at a place -/

/-- Each column that is known, here or at any node below, satisfies `T`. -/
structure Knows (T : TrueVar → Prop) (c : ContextModifier α) : Prop where
  known : ∀ t ∈ c.listOfNotNullInCurrent, T t
  setsTrue : ∀ e ∈ c.listListTrue, ∀ t ∈ e, T t
  setsFalse : ∀ e ∈ c.listListFalse, ∀ t ∈ e, T t

section

variable {P : Pass α} {T : TrueVar → Prop} {c c' : ContextModifier α} {node : Node α}

theorem Knows.of_framed (h : Knows T c) (hframed : Framed c c') : Knows T c' :=
  ⟨hframed.known ▸ h.known, hframed.listListTrue ▸ h.setsTrue, hframed.listListFalse ▸ h.setsFalse⟩

theorem Knows.enterBoolExpr (h : Knows T c) (hent : c.enterBoolExpr = some c') : Knows T c' := by
  simp only [ContextModifier.enterBoolExpr, Option.bind_eq_bind, Option.bind_eq_some_iff,
    Option.some.injEq] at hent
  obtain ⟨known, hnth, rfl⟩ := hent
  have hknown : ∀ t ∈ known, T t := by
    have hmem := mem_of_listNth hnth
    split at hmem
    · exact h.setsTrue _ hmem
    · exact h.setsFalse _ hmem
  exact ⟨List.forall_mem_append.mpr ⟨h.known, hknown⟩, h.setsTrue, h.setsFalse⟩

theorem Knows.enter (h : Knows T c) (hent : P.enterMutator node c = some c') : Knows T c' := by
  cases node with
  | boolExpr boolop args =>
    cases boolop with
    | notExpr =>
      cases hent
      exact ⟨h.known, h.setsTrue, h.setsFalse⟩
    | andExpr | orExpr => exact h.enterBoolExpr hent
  | query targetList rtable fromlist quals =>
    simp only [Pass.enterMutator, ContextModifier.enterQuery, Option.bind_eq_bind,
      Option.bind_eq_some_iff, Option.some.injEq] at hent
    obtain ⟨_, _, rfl⟩ := hent
    exact ⟨h.known, h.setsTrue, h.setsFalse⟩
  | opExpr opno args =>
    cases hent
    exact h.of_framed (P.framed_enterOpExpr opno c)
  | null | var _ | const _ | param _ | nullTest _ _ | subLink _ _ _ | rangeTblEntry _ _ _
  | targetEntry _ _ | list _ =>
    cases hent
    exact h

/-- What holds of all that is known at the start holds of what is known at a place. -/
theorem Knows.mutatorAt {path : List Nat} {target : Node α} {m : ContextModifier α} (h : Knows T c)
    (hm : P.mutatorAt path node c = some (target, m)) : Knows T m := by
  induction path generalizing node c with
  | nil =>
    cases hm
    exact h
  | cons i path ih =>
    simp only [Pass.mutatorAt, Option.bind_eq_bind, Option.bind_eq_some_iff] at hm
    obtain ⟨c0, hent, ⟨outs, c1⟩, hrun, child, _, hm⟩ := hm
    exact ih ((h.enter hent).of_framed (P.framed_myMutatorList hrun)) hm

theorem knows_emptied (c : ContextModifier α) : Knows (fun _ => False) (emptied c) :=
  ⟨by simp [emptied], by simp [emptied], by simp [emptied]⟩

theorem Fresh.emptied {q : Node α} (h : Fresh cat q c) : Fresh cat q (emptied c) :=
  ⟨h.ready, h.checks, h.trueVars, by simp [Infed.emptied, h.lengthTrue],
    by simp [Infed.emptied, h.lengthFalse], h.whereIAm, h.whereIAmQuerry⟩

end

/-! ### From atoms to conditions -/

section

variable {P : Pass α} {c c' : ContextModifier α} {node out : Node α} {os : Scopes}

/-- A run over a list relates each element with its result. -/
theorem Pass.forall₂_run {Q : Node α → Node α → Prop} {nodes outs : List (Node α)}
    (hrun : P.myMutatorList nodes c = some (outs, c'))
    (h : ∀ i child left ci out ci', nodes[i]? = some child →
      P.myMutatorList (nodes.take i) c = some (left, ci) →
      P.myMutator child ci = some (out, ci') → Q child out) : List.Forall₂ Q nodes outs := by
  rw [Pass.myMutatorList] at hrun
  induction nodes generalizing c outs with
  | nil =>
    cases hrun
    exact .nil
  | cons node nodes ih =>
    simp only [mutateList, Option.bind_eq_bind, Option.bind_eq_some_iff] at hrun
    obtain ⟨⟨out, c1⟩, hhead, ⟨outs, c2⟩, htail, hres⟩ := hrun
    cases hres
    refine .cons (h 0 node [] c out c1 rfl rfl hhead) (ih htail ?_)
    intro i child left ci out' ci' hchild hleft hrun
    exact h (i + 1) child _ ci out' ci' hchild (mutateList_cons hhead hleft) hrun

theorem Pass.myMutator_boolExpr_inv {boolop : BoolExprType} {args : List (Node α)}
    (hrun : P.myMutator (.boolExpr boolop args) c = some (out, c')) :
    ∃ c0 outs c1, P.enterMutator (.boolExpr boolop args) c = some c0 ∧
      P.myMutatorList args c0 = some (outs, c1) ∧ out = .boolExpr boolop outs := by
  rw [Pass.myMutator] at hrun
  cases boolop with
  | notExpr =>
    simp only [mutate, Pass.myMutatorStep, Option.bind_eq_bind, Option.bind_eq_some_iff] at hrun
    obtain ⟨⟨out, c2⟩, ⟨⟨outs, c1⟩, hlist, hout⟩, hres⟩ := hrun
    cases hout
    cases hres
    exact ⟨c.enterNot, outs, c1, rfl, hlist, rfl⟩
  | andExpr | orExpr =>
    simp only [mutate, Pass.myMutatorStep, Option.bind_eq_bind, Option.bind_eq_some_iff] at hrun
    obtain ⟨c0, hent, ⟨out, c2⟩, ⟨⟨outs, c1⟩, hlist, hout⟩, hres⟩ := hrun
    cases hout
    cases hres
    exact ⟨c0, outs, c1, hent, hlist, rfl⟩

theorem Pass.myMutator_selectFrom_inv {targetList : List (Node α)} {relids : List Oid}
    {quals : Node α}
    (hrun : P.myMutator (selectFrom targetList relids quals) c = some (out, c')) :
    ∃ c0 quals' c1, c.enterQuery = some c0 ∧ P.myMutator quals c0 = some (quals', c1) ∧
      out = selectFrom targetList relids quals' := by
  rw [Pass.myMutator, selectFrom] at hrun
  simp only [mutate, Pass.myMutatorStep, Option.bind_eq_bind, Option.bind_eq_some_iff] at hrun
  obtain ⟨c0, hent, ⟨sub', c2⟩, ⟨⟨quals', c1⟩, hquals, hout⟩, hsub⟩ := hrun
  cases hout
  cases hsub
  exact ⟨c0, quals', c1, hent, hquals, rfl⟩

theorem Pass.myMutator_existsFrom_inv {targetList : List (Node α)} {relids : List Oid}
    {quals : Node α}
    (hrun : P.myMutator (existsFrom targetList relids quals) c = some (out, c')) :
    ∃ q', P.myMutator (selectFrom targetList relids quals) c = some (q', c') ∧
      out = .subLink .existsSublink .null q' := by
  rw [Pass.myMutator, existsFrom] at hrun
  simp only [mutate, Pass.myMutatorStep, Option.bind_eq_bind, Option.bind_eq_some_iff] at hrun
  obtain ⟨⟨test', c1⟩, htest, ⟨q', c2⟩, hsub, hres⟩ := hrun
  cases htest
  cases hres
  exact ⟨q', hsub, rfl⟩

theorem Pass.isExists_run (hex : node.isExists = true)
    (hrun : P.myMutator node c = some (out, c')) : out.isExists = true := by
  unfold Node.isExists at hex
  split at hex
  · rw [Pass.myMutator] at hrun
    simp only [mutate, Pass.myMutatorStep, Option.bind_eq_bind, Option.bind_eq_some_iff] at hrun
    obtain ⟨⟨test', c1⟩, _, ⟨sub', c2⟩, _, hres⟩ := hrun
    cases hres
    rfl
  · cases hex

theorem evalCond_exists_ofBool {I : Interp α} {D : Database α} (hex : node.isExists = true)
    (ρ : Env α) : ∃ x, evalCond I D node ρ = .ofBool x := by
  unfold Node.isExists at hex
  split at hex
  · exact ⟨_, rfl⟩
  · cases hex

variable {I : Interp α} {D D' : Database α} {S : Row α → Row α → Prop}
  {atom : Scopes → Node α → Prop}

/-- Between related environments, over rows of the tables in scope, each atom that the mutator comes
to is carried by what it becomes, at the polarity `p` counts from. -/
def Pass.CarriesAtoms (P : Pass α) (I : Interp α) (D D' : Database α) (S : Row α → Row α → Prop)
    (os : Scopes) (p : Bool) (node : Node α) (c : ContextModifier α) : Prop :=
  ∀ path target m out m', through path node = true → target.isAtom = true →
    P.mutatorAt path node c = some (target, m) → P.myMutator target m = some (out, m') →
    ∀ ρ ρ', ρ.Over D (scopesAt path node os) → ρ.Rel S ρ' →
      Kleene.Carries (polarityAt path node p) true (evalCond I D out ρ) (evalCond I D' target ρ')

theorem Pass.CarriesAtoms.child {p : Bool} {c0 ci : ContextModifier α} {i : Nat} {child : Node α}
    {left : List (Node α)} (h : P.CarriesAtoms I D D' S os p node c)
    (hnode : node.isConnective = true) (hent : P.enterMutator node c = some c0)
    (hchild : node.children[i]? = some child)
    (hleft : P.myMutatorList (node.children.take i) c0 = some (left, ci)) :
    P.CarriesAtoms I D D' S (innerScopes os node) (innerPolarity p node) child ci := by
  intro path target m out m' hthrough hatom hm hrun ρ ρ' hover hρ
  have hcarries := h (i :: path) target m out m' (by rw [through_cons hchild, hnode, hthrough]; rfl)
    hatom (by simp [Pass.mutatorAt, hent, hleft, hchild, hm]) hrun ρ ρ'
  rw [scopesAt, polarityAt, hchild, Option.elim_some, Option.elim_some] at hcarries
  exact hcarries hover hρ

/-- The WHERE of a query. -/
theorem Pass.CarriesAtoms.quals {p : Bool} {c0 : ContextModifier α} {targetList : List (Node α)}
    {relids : List Oid} {quals : Node α}
    (h : P.CarriesAtoms I D D' S os p (selectFrom targetList relids quals) c)
    (hent : c.enterQuery = some c0) : P.CarriesAtoms I D D' S (relids :: os) p quals c0 := by
  have hinner : innerScopes os (selectFrom targetList relids quals) = relids :: os := by
    rw [selectFrom, innerScopes, map_relidOf_baseTable]
  have hnil : P.myMutatorList [] c0 = some ([], c0) := rfl
  exact hinner ▸ h.child (i := 0) rfl hent rfl hnil

/-- If each atom is carried by what the mutator makes of it, so is the condition. -/
theorem Pass.carries_run (hD : ∀ relid, List.Forall₂ S (D relid) (D' relid))
    (hatom : ∀ os a, atom os a → a.isAtom = true) (h : Cond atom False os node) {p : Bool}
    (hrun : P.myMutator node c = some (out, c')) (hatoms : P.CarriesAtoms I D D' S os p node c)
    {ρ ρ' : Env α} (hover : ρ.Over D os) (hρ : ρ.Rel S ρ') :
    Kleene.Carries p true (evalCond I D out ρ) (evalCond I D' node ρ') := by
  induction h generalizing p c c' out ρ ρ' with
  | leaf ha => exact hatoms [] _ c out c' rfl (hatom _ _ ha) rfl hrun ρ ρ' hover hρ
  | null =>
    cases hrun
    exact .refl p true _
  | @and os args _ _ ih =>
    obtain ⟨c0, outs, c1, hent, hlist, rfl⟩ := Pass.myMutator_boolExpr_inv hrun
    simp only [evalCond, evalConds_eq_map]
    refine .conj ?_
    rw [List.forall₂_map_left_iff, List.forall₂_map_right_iff]
    refine (Pass.forall₂_run hlist ?_).flip
    intro i child left ci out' ci' hchild hleft hrun'
    exact ih child (List.mem_of_getElem? hchild) hrun' (hatoms.child rfl hent hchild hleft) hover hρ
  | @or os args _ _ ih =>
    obtain ⟨c0, outs, c1, hent, hlist, rfl⟩ := Pass.myMutator_boolExpr_inv hrun
    simp only [evalCond, evalConds_eq_map]
    refine .disj ?_
    rw [List.forall₂_map_left_iff, List.forall₂_map_right_iff]
    refine (Pass.forall₂_run hlist ?_).flip
    intro i child left ci out' ci' hchild hleft hrun'
    exact ih child (List.mem_of_getElem? hchild) hrun' (hatoms.child rfl hent hchild hleft) hover hρ
  | @not os a hex ha ih =>
    obtain ⟨c0, outs, c1, hent, hlist, rfl⟩ := Pass.myMutator_boolExpr_inv hrun
    rw [Pass.myMutatorList] at hlist
    simp only [mutateList, Option.bind_eq_bind, Option.bind_some, Option.bind_eq_some_iff] at hlist
    obtain ⟨⟨out, c2⟩, hrun', hres⟩ := hlist
    cases hres
    have hcarries := ih hrun' (hatoms.child (i := 0) rfl hent rfl rfl) hover hρ
    -- NOT is only in front of EXISTS, which is two-valued
    have hex' : a.isExists = true := hex.resolve_left id
    obtain ⟨x, hx⟩ := evalCond_exists_ofBool (I := I) (D := D) (Pass.isExists_run hex' hrun') ρ
    obtain ⟨y, hy⟩ := evalCond_exists_ofBool (I := I) (D := D') hex' ρ'
    rw [hx, hy] at hcarries
    rw [evalCond_not, evalCond_not, hx, hy]
    have hfalse : Kleene.Carries (!p) (!true) (.ofBool x) (.ofBool y) := hcarries.twoValued false
    exact hfalse.not
  | @exist os targetList relids quals _ ih =>
    obtain ⟨q', hsub, rfl⟩ := Pass.myMutator_existsFrom_inv hrun
    obtain ⟨c0, quals', c1, hent, hquals, rfl⟩ := Pass.myMutator_selectFrom_inv hsub
    have hnull : P.myMutatorList [.null] c = some ([.null], c) := rfl
    have hatoms' : P.CarriesAtoms I D D' S os p (selectFrom targetList relids quals) c :=
      hatoms.child (i := 1) rfl rfl rfl hnull
    refine carries_existsFrom hD targetList relids fun z z' hz hrel => ?_
    exact ih hquals (hatoms'.quals hent) (hover.push hz) (hρ.push hrel)

/-- The same for the WHERE of a query. -/
theorem Pass.carries_query (hD : ∀ relid, List.Forall₂ S (D relid) (D' relid))
    (hatom : ∀ os a, atom os a → a.isAtom = true) {targetList : List (Node α)} {relids : List Oid}
    {quals quals' : Node α} (h : Cond atom False (relids :: os) quals) {p : Bool}
    (hrun : P.myMutator (selectFrom targetList relids quals) c =
      some (selectFrom targetList relids quals', c'))
    (hatoms : P.CarriesAtoms I D D' S os p (selectFrom targetList relids quals) c) {ρ ρ' : Env α}
    (hover : ρ.Over D (relids :: os)) (hρ : ρ.Rel S ρ') :
    Kleene.Carries p true (evalCond I D quals' ρ) (evalCond I D' quals ρ') := by
  obtain ⟨c0, quals'', c1, hent, hquals, heq⟩ := Pass.myMutator_selectFrom_inv hrun
  obtain rfl : quals' = quals'' := congrArg Node.quals heq
  exact Pass.carries_run hD hatom h hquals (hatoms.quals hent) hover hρ

/-! ### One database -/

theorem rowsRel_refl (z : List (Nat × Row α)) : RowsRel Eq z z :=
  List.forall₂_same.mpr fun _ _ => ⟨rfl, rfl⟩

theorem Env.rel_refl (ρ : Env α) : ρ.Rel Eq ρ := List.forall₂_same.mpr fun _ _ => rowsRel_refl _

/-- A comparison of columns and constants looks at the rows only. -/
theorem evalCond_opExpr_rel {opno : Oid} {args : List (Node α)} {ρ ρ' : Env α}
    (hargs : ∀ a ∈ args, Operand cat os a) (hρ : ρ.Rel Eq ρ') :
    evalCond I D (.opExpr opno args) ρ' = evalCond I D (.opExpr opno args) ρ := by
  simp only [evalCond, evalScalars_eq_map]
  refine congrArg (I.test opno) (List.map_congr_left fun a ha => ?_)
  cases hargs a ha with
  | constant => rfl
  | @column v _ =>
    simp only [evalScalar, Env.column]
    rw [hρ.row rfl v.varlevelsup v.varno]

theorem Env.over_empty (D : Database α) : Env.empty.Over D [] := by
  intro l relids n relid hl
  cases hl

/-- WHERE conditions that are true together, on rows of the tables in scope, give the same rows. -/
theorem evalQuery_congr {targetList : List (Node α)} {relids : List Oid} {quals quals' : Node α}
    {ρ : Env α} (hover : ρ.Over D os)
    (h : ∀ ρ' : Env α, ρ'.Over D (relids :: os) →
      (evalCond I D quals' ρ' = .true ↔ evalCond I D quals ρ' = .true)) :
    evalQuery I D (selectFrom targetList relids quals') ρ =
      evalQuery I D (selectFrom targetList relids quals) ρ := by
  simp only [selectFrom, evalQuery, evalRtable_baseTables]
  refine congrArg (List.map _) (List.filter_congr fun z hz => ?_)
  exact decide_eq_decide.mpr (h _ (hover.push hz))

end

end Infed
