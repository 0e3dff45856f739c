import Infed.Run

/-! The two traversals in step.  Along a path from the root of a query, `my_walker` and `my_mutator`
enter the same nodes in the same scopes, and their counters are the numbers of AND/OR nodes to the
left of the path and outside what is to its right. -/

namespace Infed

open CellList

variable {α : Type} {cat : Catalog}

/-! ### Counting beside a path -/

def Node.isAndOr : Node α → Bool
  | .boolExpr .andExpr _ => true
  | .boolExpr .orExpr _ => true
  | _ => false

def Node.isQuery : Node α → Bool
  | .query _ _ _ _ => true
  | _ => false

/-- The number of AND/OR nodes to the left of a path. -/
def before : List Nat → Node α → Nat
  | [], _ => 0
  | i :: path, node =>
    boolCountList (node.children.take i) + (node.children[i]?).elim 0 (before path)

/-- The number of AND/OR nodes to the right of a path. -/
def after : List Nat → Node α → Nat
  | [], _ => 0
  | i :: path, node =>
    boolCountList (node.children.drop (i + 1)) + (node.children[i]?).elim 0 (after path)

/-- The node at a path. -/
def nodeAt : List Nat → Node α → Option (Node α)
  | [], node => some node
  | i :: path, node => (node.children[i]?).bind (nodeAt path)

theorem Node.boolCount_pos {node : Node α} (h : node.isAndOr = true) : 0 < boolCount node := by
  match node, h with
  | .boolExpr .andExpr _, _ | .boolExpr .orExpr _, _ => exact Nat.succ_pos _

theorem boolCountList_append (as bs : List (Node α)) :
    boolCountList (as ++ bs) = boolCountList as + boolCountList bs := by
  induction as with
  | nil => simp [boolCountList]
  | cons a as ih => simp [boolCountList, ih, Nat.add_assoc]

theorem queryScopesList_append (as bs : List (Node α)) (scope : Scope) (rte : Nat) :
    queryScopesList cat (as ++ bs) scope rte =
      queryScopesList cat as scope rte ++ queryScopesList cat bs scope (rte + rteCountList as) := by
  induction as generalizing rte with
  | nil => simp [queryScopesList, rteCountList]
  | cons a as ih => simp [queryScopesList, rteCountList, ih, Nat.add_assoc]

theorem Pass.nodeAt_of_mutatorAt {P : Pass α} {path : List Nat} {node target : Node α}
    {c m : ContextModifier α} (h : P.mutatorAt path node c = some (target, m)) :
    nodeAt path node = some target := by
  induction path generalizing node c with
  | nil =>
    cases h
    rfl
  | cons i path ih =>
    simp only [Pass.mutatorAt, Option.bind_eq_bind, Option.bind_eq_some_iff] at h
    obtain ⟨c0, _, ⟨outs, c1⟩, _, child, hchild, hrest⟩ := h
    rw [nodeAt, hchild, Option.bind_some, ih hrest]

/-! ### The nodes that are entered -/

/-- A condition, a column or constant, or a query, inside queries over the tables `os`. -/
inductive Visited (cat : Catalog) : Scopes → Node α → Prop where
  | cond {os a} : Cond (Atom cat) True os a → Visited cat os a
  | operand {os a} : Operand cat os a → Visited cat os a
  | query {os targetList relids quals} : Cond (Atom cat) True (relids :: os) quals →
    Visited cat os (selectFrom targetList relids quals)

/-- The scopes of a node's children. -/
def innerScopes (os : Scopes) : Node α → Scopes
  | .query _ rtable _ _ => rtable.map relidOf :: os
  | _ => os

/-- The scopes at a path. -/
def scopesAt : List Nat → Node α → Scopes → Scopes
  | [], _, os => os
  | i :: path, node, os =>
    (node.children[i]?).elim os fun child => scopesAt path child (innerScopes os node)

theorem Visited.child {os : Scopes} {node child : Node α} (h : Visited cat os node)
    (hchild : child ∈ node.children) : Visited cat (innerScopes os node) child := by
  cases h with
  | operand ha => cases ha <;> simp [Node.children] at hchild
  | query hquals =>
    simp only [selectFrom, Node.children, List.mem_singleton] at hchild
    rw [hchild, selectFrom, innerScopes, map_relidOf_baseTable]
    exact .cond hquals
  | cond ha =>
    cases ha with
    | leaf ha =>
      cases ha with
      | comparison hargs => exact .operand (hargs child hchild)
      | nullTest harg =>
        rw [Node.children, List.mem_singleton] at hchild
        exact .operand (hchild ▸ harg)
    | null => simp [Node.children] at hchild
    | and _ hargs => exact .cond (hargs child hchild)
    | or _ hargs => exact .cond (hargs child hchild)
    | not _ ha =>
      rw [Node.children, List.mem_singleton] at hchild
      exact .cond (hchild ▸ ha)
    | exist hquals =>
      simp only [existsFrom, Node.children, List.mem_cons, List.not_mem_nil, or_false] at hchild
      rcases hchild with rfl | rfl
      · exact .cond .null
      · exact .query hquals

theorem Visited.operands {os : Scopes} {opno : Oid} {args : List (Node α)}
    (h : Visited cat os (.opExpr opno args)) : ∀ a ∈ args, Operand cat os a := by
  generalize hnode : (.opExpr opno args : Node α) = node at h
  cases h with
  | operand ha => cases ha <;> cases hnode
  | query _ => cases hnode
  | cond ha =>
    cases ha with
    | leaf ha =>
      cases ha with
      | comparison hargs =>
        cases hnode
        exact hargs
      | nullTest _ => cases hnode
    | null | and _ _ | or _ _ | not _ _ | exist _ => cases hnode

theorem counts_operands {os : Scopes} {args : List (Node α)}
    (hargs : ∀ a ∈ args, Operand cat os a) :
    boolCountList args = 0 ∧ ∀ scope rte, queryScopesList cat args scope rte = [] := by
  induction args with
  | nil => simp [boolCountList, queryScopesList]
  | cons a args ih =>
    obtain ⟨h1, h2⟩ := ih fun b hb => hargs b (List.mem_cons_of_mem _ hb)
    cases hargs a List.mem_cons_self <;>
      simp [boolCountList, boolCount, queryScopesList, queryScopes, h1, h2]

/-- The counts of a node, from those of its children. -/
theorem Visited.counts {os : Scopes} {node : Node α} (h : Visited cat os node) :
    boolCount node = (if node.isAndOr then 1 else 0) + boolCountList node.children ∧
      (node.isQuery = false → ∀ scope rte,
        queryScopes cat node scope rte = queryScopesList cat node.children scope rte) := by
  cases h with
  | operand ha => cases ha <;>
      simp [boolCount, Node.isAndOr, Node.children, boolCountList, queryScopes, queryScopesList]
  | query _ =>
    refine ⟨by simp [selectFrom, boolCount, Node.isAndOr, Node.children, boolCountList], ?_⟩
    intro hne
    cases hne
  | cond ha =>
    cases ha with
    | leaf ha =>
      cases ha with
      | comparison hargs =>
        obtain ⟨h1, h2⟩ := counts_operands hargs
        simp [boolCount, Node.isAndOr, Node.children, queryScopes, h1, h2]
      | nullTest harg =>
        cases harg <;>
          simp [boolCount, Node.isAndOr, Node.children, boolCountList, queryScopes, queryScopesList]
    | null =>
      simp [boolCount, Node.isAndOr, Node.children, boolCountList, queryScopes, queryScopesList]
    | and _ _ => simp [boolCount, Node.isAndOr, Node.children, queryScopes, Nat.add_comm]
    | or _ _ => simp [boolCount, Node.isAndOr, Node.children, queryScopes, Nat.add_comm]
    | not _ _ => simp [boolCount, Node.isAndOr, Node.children, queryScopes]
    | exist _ =>
      simp [existsFrom, boolCount, Node.isAndOr, Node.children, boolCountList, queryScopes,
        queryScopesList, rteCount]

section

variable (P : Pass α) {os : Scopes} {node : Node α}

theorem Pass.walks_visited (h : Visited cat os node) : P.Walks cat os node := by
  cases h with
  | cond h => exact P.walks_cond h
  | query h => exact P.walks_selectFrom (P.walks_cond h)
  | operand h =>
    intro N M c hs inv
    obtain ⟨heap, inOp, hrun, col⟩ := P.myWalker_operand hs h inv.ordered inv.inOp
    refine ⟨_, hrun, ?_, inv.ofCollects col⟩
    cases h <;> exact Walked.ofCollects col

/-- Where no operator is taken apart, the mutator returns on every node that is entered. -/
theorem Pass.mutates_visited (hP : ∀ opno, P.strictPart opno = none) (E : List TrueVar → Prop)
    (h : Visited cat os node) :
    P.Mutates (fun _ _ => True) E (fun _ => True) (fun _ _ _ _ => True) cat os node := by
  have hatom : ∀ os (a : Node α), Atom cat os a →
      P.Mutates (fun _ _ => True) E (fun _ => True) (fun _ _ _ _ => True) cat os a := by
    intro os a ha c rte hs _ _ _
    cases ha with
    | comparison hargs =>
      simp only [queryScopes, boolCount, List.length_nil]
      rw [P.myMutator_opExpr (hP _) hargs hs]
      split
      · exact ⟨_, _, _, rfl, trivial, trivial⟩
      · split <;> exact ⟨_, _, _, rfl, trivial, trivial⟩
    | nullTest harg => exact ⟨_, _, _, P.myMutator_nullTest harg hs, trivial, trivial⟩
  have hcond : ∀ {os} {a : Node α}, Cond (Atom cat) True os a →
      P.Mutates (fun _ _ => True) E (fun _ => True) (fun _ _ _ _ => True) cat os a := fun h =>
    Pass.mutates_cond (fun _ _ _ _ => trivial) hatom (fun _ _ => trivial)
      (fun _ _ _ _ _ _ _ _ _ => trivial) (fun _ _ _ _ _ => trivial)
      (fun _ _ _ _ _ _ _ => trivial) h
  cases h with
  | cond h => exact hcond h
  | query h =>
    intro c rte hs hat _ _
    rw [boolCount_selectFrom] at hat ⊢
    obtain ⟨out, r, ks, hrun, _⟩ := Pass.myMutator_selectFrom (hcond h) hs hat trivial trivial
    exact ⟨_, r, ks, hrun, trivial, trivial⟩
  | operand h =>
    intro c rte hs _ _ _
    have hrun := P.myMutator_operand h hs
    cases h <;> exact ⟨_, _, _, hrun, trivial, trivial⟩

end

/-! ### Down a path -/

/-- The scope of a node's children, and the number of their first FROM entry. -/
def inner (cat : Catalog) (scope : Scope) (rte : Nat) : Node α → Scope × Nat
  | .query _ rtable _ _ => (scope.enter cat rte (rtable.map relidOf), rte + rtable.length)
  | _ => (scope, rte)

/-- The polarity of a node's children. -/
def innerPolarity (positive : Bool) : Node α → Bool
  | .boolExpr .notExpr _ => !positive
  | _ => positive

/-- `my_walker` is about to enter the node. -/
structure WalkerIn (cat : Catalog) (os : Scopes) (node : Node α)
    (c : ContextWalkerSetConstraint) : Prop where
  visited : Visited cat os node
  resolves : c.currentTrueVar.Resolves cat os
  inv : ∃ N M, WalkInv N M c

/-- `my_mutator` is about to enter the node, whose first FROM entry has number `rte`; `S` holds of
the columns in its lists. -/
structure MutatorIn (cat : Catalog) (S : TrueVar → Prop) (os : Scopes) (scope : Scope) (rte : Nat)
    (node : Node α) (c : ContextModifier α) : Prop where
  visited : Visited cat os node
  resolves : scope.Resolves cat os
  current : node.isQuery = false → c.currentTrueVar = scope
  atPart : AtPart (fun e => ∀ t ∈ e, S t) (queryScopes cat node scope rte) (boolCount node) c
  known : ∀ t ∈ c.listOfNotNullInCurrent, S t

/-- `my_mutator` is about to go through the children of the node that it entered from `c`. -/
structure MutatorInside (cat : Catalog) (S : TrueVar → Prop) (os : Scopes) (scope : Scope)
    (rte : Nat) (node : Node α) (c c0 : ContextModifier α) : Prop where
  current : c0.currentTrueVar = (inner cat scope rte node).1
  resolves : (inner cat scope rte node).1.Resolves cat (innerScopes os node)
  atPart : AtPart (fun e => ∀ t ∈ e, S t) (queryScopesList cat node.children
    (inner cat scope rte node).1 (inner cat scope rte node).2) (boolCountList node.children) c0
  known : ∀ t ∈ c0.listOfNotNullInCurrent, S t
  positive : c0.positive = innerPolarity c.positive node
  count : c0.whereIAm + boolCountList node.children = c.whereIAm + boolCount node
  listListTrue : c0.listListTrue = c.listListTrue
  listListFalse : c0.listListFalse = c.listListFalse

section

variable {P : Pass α} {S : TrueVar → Prop} {os : Scopes} {node child : Node α} {i : Nat}

theorem WalkerIn.enter {c : ContextWalkerSetConstraint} (h : WalkerIn cat os node c) :
    ∃ c0, P.enterWalker cat node c = some c0 ∧
      c0.currentTrueVar.Resolves cat (innerScopes os node) ∧ (∃ N M, WalkInv N M c0) ∧
      c0.listListTrue = c.listListTrue ∧ c0.listListFalse = c.listListFalse ∧
      (c0.currentTrueVar, c0.rtes) = inner cat c.currentTrueVar c.rtes node ∧
      c0.trueVars.length = c.trueVars.length + if node.isQuery then 1 else 0 := by
  obtain ⟨hvis, hs, N, M, inv⟩ := h
  cases hvis with
  | operand ha => cases ha <;> exact ⟨c, rfl, hs, ⟨N, M, inv⟩, rfl, rfl, rfl, rfl⟩
  | @query _ relids quals _ =>
    obtain ⟨schema, hopen, _⟩ := P.openQuery_baseTables cat relids c
    refine ⟨_, hopen, ?_, ⟨N, M, inv.ofScope _ _ _ _⟩, rfl, rfl, ?_, ?_⟩
    · rw [selectFrom, innerScopes, map_relidOf_baseTable]
      exact hs.enter c.rtes relids
    · rw [selectFrom, inner, map_relidOf_baseTable, List.length_map]
      rfl
    · simp [ContextWalkerSetConstraint.enter, selectFrom, Node.isQuery]
  | cond ha =>
    cases ha with
    | null | exist _ => exact ⟨c, rfl, hs, ⟨N, M, inv⟩, rfl, rfl, rfl, rfl⟩
    | and _ _ | or _ _ | not _ _ =>
      exact ⟨c.openBoolExpr, rfl, hs, ⟨_, _, inv.openBoolExpr⟩, rfl, rfl, rfl, rfl⟩
    | leaf ha =>
      cases ha with
      | nullTest _ => exact ⟨c, rfl, hs, ⟨N, M, inv⟩, rfl, rfl, rfl, rfl⟩
      | @comparison opno args _ =>
        refine ⟨P.openOpExpr opno c, rfl, ?_⟩
        rw [Pass.openOpExpr]
        split
        · exact ⟨hs, ⟨N, M, inv.openOpExpr⟩, rfl, rfl, rfl, rfl⟩
        · exact ⟨hs, ⟨N, M, inv⟩, rfl, rfl, rfl, rfl⟩

/-- The walker goes from a node to its `i`-th child, over the children before it. -/
theorem WalkerIn.step {c : ContextWalkerSetConstraint} (h : WalkerIn cat os node c)
    (hchild : node.children[i]? = some child) :
    ∃ c', (∀ path, P.walkerAt cat (i :: path) node c = P.walkerAt cat path child c') ∧
      WalkerIn cat (innerScopes os node) child c' ∧
      c'.listListTrue.length = c.listListTrue.length + boolCountList (node.children.take i) ∧
      c'.listListFalse.length = c.listListFalse.length + boolCountList (node.children.take i) ∧
      c'.currentTrueVar = (inner cat c.currentTrueVar c.rtes node).1 ∧
      c'.rtes = (inner cat c.currentTrueVar c.rtes node).2 + rteCountList (node.children.take i) ∧
      c'.trueVars.length = c.trueVars.length + (if node.isQuery then 1 else 0) +
        (queryScopesList cat (node.children.take i) (inner cat c.currentTrueVar c.rtes node).1
          (inner cat c.currentTrueVar c.rtes node).2).length := by
  obtain ⟨c0, henter, hs0, ⟨N, M, inv0⟩, ht0, hf0, hinner, hlen0⟩ := h.enter (P := P)
  have hleft : ∀ a ∈ node.children.take i, P.Walks cat (innerScopes os node) a := fun a ha =>
    P.walks_visited (h.visited.child (List.mem_of_mem_take ha))
  obtain ⟨c', hrun, w, N', _, inv'⟩ := P.myWalkerList_spec hleft hs0 inv0
  obtain ⟨new, hnew, hlen⟩ := w.entriesTrue
  obtain ⟨newF, hnewF, hlenF⟩ := w.entriesFalse
  refine ⟨c', fun path => by simp [Pass.walkerAt, henter, hrun, hchild],
    ⟨h.visited.child (List.mem_of_getElem? hchild), w.currentTrueVar.symm ▸ hs0, N', M, inv'⟩, ?_,
      ?_, ?_, ?_, ?_⟩
  · rw [hnew, List.length_append, hlen, ht0]
  · rw [hnewF, List.length_append, hlenF, hf0]
  · rw [w.currentTrueVar, ← hinner]
  · rw [w.rtes, ← hinner]
  · rw [w.trueVars, List.length_append, hlen0, ← hinner]

section

variable {scope : Scope} {rte : Nat} {c : ContextModifier α}

/-- A node that is neither a query nor an AND/OR node sets flags only. -/
theorem MutatorIn.inside_flags (h : MutatorIn cat S os scope rte node c)
    (hq : node.isQuery = false) (hb : node.isAndOr = false) {positive : Bool}
    (hp : positive = innerPolarity c.positive node) (ready : Bool) :
    MutatorInside cat S os scope rte node c { c with positive, ready } := by
  obtain ⟨hcount, hscopes⟩ := h.visited.counts
  have hinner : inner cat scope rte node = (scope, rte) ∧ innerScopes os node = os := by
    cases node <;> first | exact ⟨rfl, rfl⟩ | cases hq
  have hat := h.atPart
  rw [hb, if_neg Bool.false_ne_true, Nat.zero_add] at hcount
  rw [hscopes hq, hcount] at hat
  refine ⟨?_, ?_, ?_, h.known, hp, by rw [hcount], rfl, rfl⟩
  · rw [hinner.1]
    exact h.current hq
  · rw [hinner.1, hinner.2]
    exact h.resolves
  · rw [hinner.1]
    exact ⟨hat.queries, hat.bools, hat.lengths, hat.setsTrue, hat.setsFalse⟩

/-- An AND/OR node adds the columns recorded for it. -/
theorem MutatorIn.inside_boolExpr {boolop : BoolExprType} {args : List (Node α)}
    (hop : boolop ≠ .notExpr) (h : MutatorIn cat S os scope rte (.boolExpr boolop args) c) :
    ∃ c0, c.enterBoolExpr = some c0 ∧
      MutatorInside cat S os scope rte (.boolExpr boolop args) c c0 := by
  have hat := h.atPart
  rw [boolCount_boolExpr hop, queryScopes_boolExpr] at hat
  obtain ⟨known, hknown, hent⟩ := hat.enterBoolExpr
  refine ⟨_, hent, h.current rfl, h.resolves, hat.inBoolExpr known, fun t ht => ?_, ?_, ?_, rfl,
    rfl⟩
  · rcases List.mem_append.mp ht with ht | ht
    · exact h.known t ht
    · exact hknown t ht
  · cases boolop <;> first | rfl | exact absurd rfl hop
  · simp only [Node.children, boolCount_boolExpr hop]
    omega

/-- A query puts its own scope in place. -/
theorem MutatorIn.inside_query {targetList : List (Node α)} {relids : List Oid} {quals : Node α}
    (h : MutatorIn cat S os scope rte (selectFrom targetList relids quals) c) :
    ∃ c0, c.enterQuery = some c0 ∧
      MutatorInside cat S os scope rte (selectFrom targetList relids quals) c c0 := by
  have hat := h.atPart
  rw [boolCount_selectFrom, queryScopes_selectFrom] at hat
  refine ⟨_, hat.enterQuery, ?_, ?_, ?_, h.known, rfl, ?_, rfl, rfl⟩
  · rw [selectFrom, inner, map_relidOf_baseTable]
  · rw [selectFrom, inner, innerScopes, map_relidOf_baseTable]
    exact h.resolves.enter rte relids
  · simp only [selectFrom, inner, Node.children, queryScopesList, boolCountList,
      map_relidOf_baseTable, List.length_map, List.append_nil, Nat.add_zero]
    exact hat.inQuery
  · simp [selectFrom, Node.children, boolCountList, boolCount]

theorem MutatorIn.enter (h : MutatorIn cat S os scope rte node c) :
    ∃ c0, P.enterMutator node c = some c0 ∧ MutatorInside cat S os scope rte node c c0 := by
  have hvis := h.visited
  cases hvis with
  | operand ha => cases ha <;> exact ⟨c, rfl, h.inside_flags rfl rfl rfl _⟩
  | query _ => exact h.inside_query
  | cond ha =>
    cases ha with
    | null | exist _ => exact ⟨c, rfl, h.inside_flags rfl rfl rfl _⟩
    | and _ _ | or _ _ => exact h.inside_boolExpr (by simp)
    | not _ _ => exact ⟨c.enterNot, rfl, h.inside_flags rfl rfl rfl _⟩
    | leaf ha =>
      cases ha with
      | nullTest _ => exact ⟨c, rfl, h.inside_flags rfl rfl rfl _⟩
      | @comparison opno args _ =>
        refine ⟨P.enterOpExpr opno c, rfl, ?_⟩
        rw [Pass.enterOpExpr]
        split
        · exact h.inside_flags rfl rfl rfl _
        · exact h.inside_flags rfl rfl rfl _

theorem enterMutator_queries {c0 : ContextModifier α} (h : P.enterMutator node c = some c0) :
    c0.trueVars = c.trueVars ∧
      c0.whereIAmQuerry = c.whereIAmQuerry + if node.isQuery then 1 else 0 := by
  have hquery : ∀ {c0 : ContextModifier α}, c.enterQuery = some c0 →
      c0.trueVars = c.trueVars ∧ c0.whereIAmQuerry = c.whereIAmQuerry + 1 := by
    intro c0 h
    simp only [ContextModifier.enterQuery, Option.bind_eq_bind, Option.bind_eq_some_iff,
      Option.some.injEq] at h
    obtain ⟨_, _, rfl⟩ := h
    exact ⟨rfl, rfl⟩
  have hbool : ∀ {c0 : ContextModifier α}, c.enterBoolExpr = some c0 →
      c0.trueVars = c.trueVars ∧ c0.whereIAmQuerry = c.whereIAmQuerry := by
    intro c0 h
    simp only [ContextModifier.enterBoolExpr, Option.bind_eq_bind, Option.bind_eq_some_iff,
      Option.some.injEq] at h
    obtain ⟨_, _, rfl⟩ := h
    exact ⟨rfl, rfl⟩
  cases node with
  | boolExpr boolop args =>
    cases boolop with
    | notExpr => cases h; exact ⟨rfl, rfl⟩
    | andExpr | orExpr => exact hbool h
  | query targetList rtable fromlist quals => exact hquery h
  | opExpr opno args =>
    cases h
    rw [Pass.enterOpExpr]
    split <;> exact ⟨rfl, rfl⟩
  | null | var _ | const _ | param _ | nullTest _ _ | subLink _ _ _ | rangeTblEntry _ _ _
  | targetEntry _ _ | list _ => cases h; exact ⟨rfl, rfl⟩

/-- The mutator goes from a node to its `i`-th child, over the children before it. -/
theorem MutatorIn.step (hP : ∀ opno, P.strictPart opno = none)
    (h : MutatorIn cat S os scope rte node c) (hchild : node.children[i]? = some child) :
    ∃ c', (∀ path, P.mutatorAt (i :: path) node c = P.mutatorAt path child c') ∧
      MutatorIn cat S (innerScopes os node) (inner cat scope rte node).1
        ((inner cat scope rte node).2 + rteCountList (node.children.take i)) child c' ∧
      c'.positive = innerPolarity c.positive node ∧
      c'.whereIAm + boolCount child + boolCountList (node.children.drop (i + 1)) =
        c.whereIAm + boolCount node ∧
      c'.listListTrue = c.listListTrue ∧ c'.listListFalse = c.listListFalse ∧
      c'.trueVars = c.trueVars ∧
      c'.whereIAmQuerry = c.whereIAmQuerry + (if node.isQuery then 1 else 0) +
        (queryScopesList cat (node.children.take i) (inner cat scope rte node).1
          (inner cat scope rte node).2).length := by
  obtain ⟨c0, hent, hin⟩ := h.enter (P := P)
  obtain ⟨htrueVars, hquerry⟩ := enterMutator_queries hent
  obtain ⟨hlt, hget⟩ := List.getElem?_eq_some_iff.mp hchild
  have hsplit : node.children = node.children.take i ++ child :: node.children.drop (i + 1) := by
    rw [← hget, List.getElem_cons_drop, List.take_append_drop]
  have hat := hin.atPart
  rw [hsplit, queryScopesList_append, boolCountList_append] at hat
  obtain ⟨outs, ready, checks, hrun, _, _⟩ := Pass.myMutatorList_spec
    (fun a ha => P.mutates_visited hP _ (h.visited.child (List.mem_of_mem_take ha)))
    (c := c0) (hin.current.symm ▸ hin.resolves) (hin.current.symm ▸ hat.left) trivial trivial
  have hcount := hin.count
  rw [hsplit, boolCountList_append, boolCountList] at hcount
  rw [hin.current] at hrun
  refine ⟨c0.advance ready checks _ _, fun path => ?_,
    ⟨h.visited.child (List.mem_of_getElem? hchild), hin.resolves, fun _ => hin.current,
      (hat.right ready checks).left, hin.known⟩, hin.positive, ?_, hin.listListTrue,
    hin.listListFalse, htrueVars, ?_⟩
  · rw [Pass.mutatorAt, hent]
    simp only [Option.bind_eq_bind, Option.bind_some, hrun, hchild]
  · simp only [ContextModifier.advance]
    omega
  · simp only [ContextModifier.advance, hquerry]

/-- A property of a node, its polarity, its scope, and the number of its first FROM entry that goes
down to the children. -/
def GoesDown (cat : Catalog) (R : Bool → Node α → Scope → Nat → Prop) : Prop :=
  ∀ positive os node scope rte i child, Visited cat os node → node.children[i]? = some child →
    R positive node scope rte → R (innerPolarity positive node) child (inner cat scope rte node).1
      ((inner cat scope rte node).2 + rteCountList (node.children.take i))

/-- The mutator reaches the node at every path, and by then has passed every AND/OR node that is not
in the node or to the right of the path. -/
theorem MutatorIn.run (hP : ∀ opno, P.strictPart opno = none)
    {R : Bool → Node α → Scope → Nat → Prop} (hR : GoesDown cat R) {path : List Nat}
    {target : Node α} (h : MutatorIn cat S os scope rte node c) (hr : R c.positive node scope rte)
    (hpath : nodeAt path node = some target) :
    ∃ os' scope' rte' c', P.mutatorAt path node c = some (target, c') ∧
      MutatorIn cat S os' scope' rte' target c' ∧ R c'.positive target scope' rte' ∧
      c'.whereIAm + boolCount target + after path node = c.whereIAm + boolCount node ∧
      c'.listListTrue = c.listListTrue ∧ c'.listListFalse = c.listListFalse := by
  induction path generalizing os scope rte node c with
  | nil =>
    cases hpath
    exact ⟨os, scope, rte, c, rfl, h, hr, by simp [after], rfl, rfl⟩
  | cons i path ih =>
    obtain ⟨child, hchild, hrest⟩ := Option.bind_eq_some_iff.mp hpath
    obtain ⟨c1, hrun1, hin1, hp1, hcount1, ht1, hf1, _⟩ := h.step hP hchild
    have hr1 := hR _ _ _ _ _ _ _ h.visited hchild hr
    rw [← hp1] at hr1
    obtain ⟨os', scope', rte', c', hrun, hin, hr', hcount, ht, hf⟩ := ih hin1 hr1 hrest
    refine ⟨os', scope', rte', c', (hrun1 path).trans hrun, hin, hr', ?_, ht.trans ht1,
      hf.trans hf1⟩
    rw [after, hchild, Option.elim_some]
    omega

end

/-- The walker reaches the node at every path, and by then has recorded the sets of the AND/OR nodes
to the left of the path. -/
theorem WalkerIn.run {path : List Nat} {target : Node α} {c : ContextWalkerSetConstraint}
    (h : WalkerIn cat os node c) (hpath : nodeAt path node = some target) :
    ∃ os' c', P.walkerAt cat path node c = some (target, c') ∧ WalkerIn cat os' target c' ∧
      c'.listListTrue.length = c.listListTrue.length + before path node ∧
      c'.listListFalse.length = c.listListFalse.length + before path node := by
  induction path generalizing os node c with
  | nil =>
    cases hpath
    exact ⟨os, c, rfl, h, rfl, rfl⟩
  | cons i path ih =>
    obtain ⟨child, hchild, hrest⟩ := Option.bind_eq_some_iff.mp hpath
    obtain ⟨c1, hrun1, hin1, ht1, hf1, _⟩ := h.step (P := P) hchild
    obtain ⟨os', c', hrun, hin, ht, hf⟩ := ih hin1 hrest
    refine ⟨os', c', (hrun1 path).trans hrun, hin, ?_, ?_⟩ <;>
      rw [before, hchild, Option.elim_some] <;> omega

end

end Infed
