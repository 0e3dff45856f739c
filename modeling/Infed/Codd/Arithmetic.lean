import Infed.Codd.Pass
import Infed.Path

/-! Comparisons of arithmetic.  An `OpExpr` inside an `OpExpr` starts the walker's list of columns
anew, and links it to the columns collected before while the outer one still appends to it.  The
outer one then links the same list a second time: to itself, or to the end of a list that already
ends with it.  The walker keeps its lists intact where nothing is left on the list by the last
arithmetic among the arguments. -/

namespace Infed.Codd

open CellList Heap

variable {α : Type} {cat : Catalog}

/-! ### Conditions -/

/-- Arithmetic over columns, constants and parameters. -/
inductive Term (cat : Catalog) (os : Scopes) : Node α → Prop where
  | column {v} : v.InScope cat os → Term cat os (.var v)
  | constant {c} : Term cat os (.const c)
  | param {i} : Term cat os (.param i)
  | op {opno args} : (∀ a ∈ args, Term cat os a) → Term cat os (.opExpr opno args)

/-- The conditions over terms, with sub-links of every kind. -/
inductive Condition (cat : Catalog) : Scopes → Node α → Prop where
  | null {os} : Condition cat os .null
  | term {os a} : Term cat os a → Condition cat os a
  | nullTest {os test arg} : Term cat os arg → Condition cat os (.nullTest test arg)
  | boolExpr {os boolop args} : args ≠ [] → (∀ a ∈ args, Condition cat os a) →
    Condition cat os (.boolExpr boolop args)
  | subLink {os kind testexpr targetList relids quals} : Condition cat os testexpr →
    Condition cat (relids :: os) quals →
    Condition cat os (.subLink kind testexpr (selectFrom targetList relids quals))

variable {os : Scopes}

theorem Term.arg {opno : Oid} {args : List (Node α)} (h : Term cat os (.opExpr opno args)) :
    ∀ a ∈ args, Term cat os a := by
  cases h with
  | op hargs => exact hargs

/-! ### The columns that an operator leaves on the list -/

mutual

/-- Whether there are columns on the walker's list after a term, given whether there were before
it. -/
def pending (p : Bool) : Node α → Bool
  | .var _ => true
  | .opExpr _ args => pendingList false args
  | _ => p

def pendingList (p : Bool) : List (Node α) → Bool
  | [] => p
  | a :: args => pendingList (pending p a) args

end

/-- Whether the walker's list of columns is linked to the collected ones after a term. -/
def attached (t : Bool) : Node α → Bool
  | .opExpr _ args => pendingList false args
  | _ => t

def attachedList (t : Bool) : List (Node α) → Bool
  | [] => t
  | a :: args => attachedList (attached t a) args

mutual

/-- No operator ends with a list of columns that arithmetic among its arguments has already
linked. -/
def separate : Node α → Bool
  | .opExpr _ args => !attachedList false args && separateList args
  | .boolExpr _ args => separateList args
  | .nullTest _ arg => separate arg
  | .subLink _ testexpr subselect => separate testexpr && separate subselect
  | .query _ _ _ quals => separate quals
  | _ => true

def separateList : List (Node α) → Bool
  | [] => true
  | node :: nodes => separate node && separateList nodes

end

theorem separateList_iff {nodes : List (Node α)} :
    separateList nodes = true ↔ ∀ a ∈ nodes, separate a = true := by
  induction nodes with
  | nil => simp [separateList]
  | cons a nodes ih => simp [separateList, ih]

/-! ### Intact lists -/

/-- The lists of a context. -/
def lists (c : ContextWalkerSetConstraint) : List ListPtr :=
  [c.listOfNotNullInOp, c.listOfNotNullToBeTrue, c.listOfNotNullToBeFalse] ++ c.listListTrue ++
    c.listListFalse

/-- Every list of the context ends. -/
def Intact (c : ContextWalkerSetConstraint) : Prop := ∀ l ∈ lists c, (c.heap.foreach l).isSome

instance (c : ContextWalkerSetConstraint) : Decidable (Intact c) :=
  inferInstanceAs (Decidable (∀ l ∈ lists c, (c.heap.foreach l).isSome = true))

/-- The walker returns, and its lists are intact wherever it enters a node or leaves one. -/
def StaysIntact (cat : Catalog) (node : Node α) (c : ContextWalkerSetConstraint) : Prop :=
  ∀ path target, nodeAt path node = some target → ∃ c1 c2,
    pass.walkerAt cat path node c = some (target, c1) ∧ Intact c1 ∧
      myWalker cat target c1 = some c2 ∧ Intact c2

theorem intact_of_walkInv {N M : Nat} {c : ContextWalkerSetConstraint} (inv : WalkInv N M c) :
    Intact c := by
  intro l hl
  have hfrom : c.heap.From 0 0 l := by
    simp only [lists, List.mem_append, List.mem_cons, List.not_mem_nil, or_false] at hl
    rcases hl with ((rfl | rfl | rfl) | hl) | hl
    · exact inv.inOp
    · exact inv.toBeTrue.valid
    · exact inv.toBeFalse.valid
    · exact inv.entriesTrue l hl
    · exact inv.entriesFalse l hl
  obtain ⟨data, hdata⟩ := inv.ordered.foreach hfrom
  rw [hdata, Option.isSome_some]

/-- Where the walker goes from the children of a node to the next one. -/
def ListStaysIntact (cat : Catalog) (nodes : List (Node α)) (c : ContextWalkerSetConstraint) :
    Prop :=
  ∀ i node, nodes[i]? = some node → ∃ ci, pass.myWalkerList cat (nodes.take i) c = some ci ∧
    StaysIntact cat node ci

theorem listStaysIntact_cons {node : Node α} {nodes : List (Node α)}
    {c c1 : ContextWalkerSetConstraint} (hrun : myWalker cat node c = some c1)
    (hhead : StaysIntact cat node c) (htail : ListStaysIntact cat nodes c1) :
    ListStaysIntact cat (node :: nodes) c := by
  intro i target hi
  cases i with
  | zero =>
    cases hi
    exact ⟨c, rfl, hhead⟩
  | succ i =>
    obtain ⟨ci, hci, hstay⟩ := htail i target hi
    refine ⟨ci, ?_, hstay⟩
    rw [List.take_succ_cons, Pass.myWalkerList, Option.bind_eq_bind, Option.bind_eq_some_iff]
    exact ⟨c1, hrun, hci⟩

theorem staysIntact_of_children {node : Node α} {c c0 c' : ContextWalkerSetConstraint}
    (henter : pass.enterWalker cat node c = some c0) (hc : Intact c)
    (hrun : myWalker cat node c = some c') (hc' : Intact c')
    (hchildren : ListStaysIntact cat node.children c0) : StaysIntact cat node c := by
  intro path target htarget
  cases path with
  | nil =>
    cases htarget
    exact ⟨c, c', rfl, hc, hrun, hc'⟩
  | cons i path =>
    rw [nodeAt, Option.bind_eq_some_iff] at htarget
    obtain ⟨child, hchild, htarget⟩ := htarget
    obtain ⟨ci, hci, hstay⟩ := hchildren i child hchild
    obtain ⟨c1, c2, hat, h⟩ := hstay path target htarget
    exact ⟨c1, c2, by simp [Pass.walkerAt, henter, hci, hchild, hat], h⟩

theorem staysIntact_leaf {node : Node α} {c c' : ContextWalkerSetConstraint}
    (hchildren : node.children = []) (henter : pass.enterWalker cat node c = some c)
    (hc : Intact c) (hrun : myWalker cat node c = some c') (hc' : Intact c') :
    StaysIntact cat node c :=
  staysIntact_of_children henter hc hrun hc' fun i child h => by simp [hchildren] at h

/-! ### Terms inside an operator -/

theorem myWalker_opExpr (cat : Catalog) (opno : Oid) (args : List (Node α))
    (c : ContextWalkerSetConstraint) :
    myWalker cat (.opExpr opno args) c =
      (pass.myWalkerList cat args { c with ready := true, listOfNotNullInOp := none }).bind
        ContextWalkerSetConstraint.closeOpExpr := rfl

/-- The walker inside an operator: `p` says whether there may be columns on its list, and `t`
whether the list may be linked to the collected ones. -/
structure InOperator (N M : Nat) (p t : Bool) (c : ContextWalkerSetConstraint) : Prop where
  inv : WalkInv N M c
  new : c.heap.From N M c.listOfNotNullInOp
  ready : c.ready = true
  empty : p = false → c.listOfNotNullInOp = none
  detached : t = false → Detached N M c

/-- The walker goes over the term and on with the other arguments. -/
def Works (cat : Catalog) (os : Scopes) (a : Node α) : Prop :=
  ∀ (N M : Nat) (p t : Bool) (c : ContextWalkerSetConstraint),
    c.currentTrueVar.Resolves cat os → InOperator N M p t c →
    ∃ c' seen, myWalker cat a c = some c' ∧ Walked cat M [] 0 0 seen c c' ∧
      InOperator N M (pending p a) (attached t a) c' ∧ StaysIntact cat a c

theorem worksList {args : List (Node α)} (hargs : ∀ a ∈ args, Works cat os a) {N M : Nat}
    {p t : Bool} {c : ContextWalkerSetConstraint} (hs : c.currentTrueVar.Resolves cat os)
    (h : InOperator N M p t c) :
    ∃ c' seen, pass.myWalkerList cat args c = some c' ∧ Walked cat M [] 0 0 seen c c' ∧
      InOperator N M (pendingList p args) (attachedList t args) c' ∧
      ListStaysIntact cat args c := by
  induction args generalizing p t c with
  | nil => exact ⟨c, [], rfl, Walked.refl cat M c, h, fun i a hi => by simp at hi⟩
  | cons a args ih =>
    obtain ⟨c1, seen1, hrun1, w1, h1, hstay1⟩ := hargs a List.mem_cons_self N M p t c hs h
    obtain ⟨c2, seen2, hrun2, w2, h2, hstay2⟩ := ih
      (fun b hb => hargs b (List.mem_cons_of_mem _ hb)) (w1.currentTrueVar.symm ▸ hs) h1
    refine ⟨c2, _, ?_, w1.trans w2, h2, listStaysIntact_cons hrun1 hstay1 hstay2⟩
    rw [Pass.myWalkerList, Option.bind_eq_bind, Option.bind_eq_some_iff]
    exact ⟨c1, hrun1, hrun2⟩

/-- An operator, whose own list of columns is not linked before its end. -/
theorem myWalker_operator {opno : Oid} {args : List (Node α)} (hargs : ∀ a ∈ args, Works cat os a)
    (hsep : attachedList false args = false) {N M : Nat} {c : ContextWalkerSetConstraint}
    (hs : c.currentTrueVar.Resolves cat os) (inv : WalkInv N M c) :
    ∃ c' seen, myWalker cat (.opExpr opno args) c = some c' ∧ Walked cat M [] 0 0 seen c c' ∧
      InOperator N M (pendingList false args) (pendingList false args) c' ∧
      StaysIntact cat (.opExpr opno args) c := by
  have h0 : InOperator N M false false { c with ready := true, listOfNotNullInOp := none } :=
    ⟨inv.openOpExpr, trivial, rfl, fun _ => rfl,
      fun _ => inv.openOpExpr.detached rfl⟩
  obtain ⟨c1, seen, hrun, w1, h1, hstay⟩ := worksList hargs
    (c := { c with ready := true, listOfNotNullInOp := none }) hs h0
  obtain ⟨c2, hclose, w2, inv2, hnew2, hin, hready⟩ :=
    h1.inv.closeOpExpr cat (h1.detached hsep)
  have hrun2 : myWalker cat (.opExpr opno args) c = some c2 := by
    rw [myWalker_opExpr, hrun, Option.bind_some, hclose]
  refine ⟨c2, _, hrun2, ((Walked.openOpExpr cat M c).trans w1).trans w2, ?_,
    staysIntact_of_children rfl (intact_of_walkInv inv) hrun2 (intact_of_walkInv inv2) hstay⟩
  refine ⟨inv2, hnew2, hready.trans h1.ready, fun hp => hin.trans (h1.empty hp),
    fun hp => inv2.detached (hin.trans (h1.empty hp))⟩

theorem Term.works {a : Node α} (ha : Term cat os a) (hsep : separate a = true) :
    Works cat os a := by
  induction ha with
  | @column v hv =>
    intro N M p t c hs h
    obtain ⟨heap, inOp, hrun, col⟩ :=
      pass.myWalker_operand (a := .var v) hs (.column hv) h.inv.ordered h.inv.inOp
    have hold : ∀ p < M, c.listOfNotNullInOp ≠ some p := fun p hp he => by
      have := h.new.le he
      omega
    have inv' := h.inv.ofCollectsNew col hold
    refine ⟨_, _, hrun, Walked.ofCollects col, ⟨inv', ?_, h.ready, fun hp => (by cases hp), ?_⟩,
      staysIntact_leaf rfl rfl (intact_of_walkInv h.inv) hrun (intact_of_walkInv inv')⟩
    · exact col.fromPtr N M h.inv.cells_le h.inv.lists_le h.new
    · exact fun ht => (h.detached ht).ofCollects col
  | constant | param =>
    intro N M p t c hs h
    exact ⟨c, [], rfl, Walked.refl cat M c, h,
      staysIntact_leaf rfl rfl (intact_of_walkInv h.inv) rfl (intact_of_walkInv h.inv)⟩
  | @op opno args _ ih =>
    intro N M p t c hs h
    simp only [separate, Bool.and_eq_true, Bool.not_eq_true', separateList_iff] at hsep
    exact myWalker_operator (fun a ha => ih a ha (hsep.2 a ha)) hsep.1 hs h.inv

/-! ### Conditions -/

/-- The walker returns from the condition with its invariant, and stays intact on the way. -/
def Safe (cat : Catalog) (os : Scopes) (node : Node α) : Prop :=
  ∀ (N M : Nat) (c : ContextWalkerSetConstraint), c.currentTrueVar.Resolves cat os →
    WalkInv N M c → ∃ c' scopes rtes bools seen, myWalker cat node c = some c' ∧
      Walked cat M scopes rtes bools seen c c' ∧ (∃ N' ≥ N, WalkInv N' M c') ∧
      StaysIntact cat node c

theorem safeList {nodes : List (Node α)} (hnodes : ∀ a ∈ nodes, Safe cat os a) {N M : Nat}
    {c : ContextWalkerSetConstraint} (hs : c.currentTrueVar.Resolves cat os)
    (inv : WalkInv N M c) :
    ∃ c' scopes rtes bools seen, pass.myWalkerList cat nodes c = some c' ∧
      Walked cat M scopes rtes bools seen c c' ∧ (∃ N' ≥ N, WalkInv N' M c') ∧
      ListStaysIntact cat nodes c := by
  induction nodes generalizing N c with
  | nil =>
    exact ⟨c, _, _, _, _, rfl, Walked.refl cat M c, ⟨N, Nat.le_refl _, inv⟩,
      fun i a hi => by simp at hi⟩
  | cons a nodes ih =>
    obtain ⟨c1, _, _, _, _, hrun1, w1, ⟨N1, hN1, inv1⟩, hstay1⟩ :=
      hnodes a List.mem_cons_self N M c hs inv
    obtain ⟨c2, _, _, _, _, hrun2, w2, ⟨N2, hN2, inv2⟩, hstay2⟩ :=
      ih (fun b hb => hnodes b (List.mem_cons_of_mem _ hb)) (w1.currentTrueVar.symm ▸ hs) inv1
    refine ⟨c2, _, _, _, _, ?_, w1.trans w2, ⟨N2, hN1.trans hN2, inv2⟩,
      listStaysIntact_cons hrun1 hstay1 hstay2⟩
    rw [Pass.myWalkerList, Option.bind_eq_bind, Option.bind_eq_some_iff]
    exact ⟨c1, hrun1, hrun2⟩

/-- A node that the walker leaves as its children left it. -/
theorem safe_of_children {node : Node α} (hnodes : ∀ a ∈ node.children, Safe cat os a)
    (henter : ∀ c, pass.enterWalker cat node c = some c)
    (hrun : ∀ c, myWalker cat node c = pass.myWalkerList cat node.children c) :
    Safe cat os node := by
  intro N M c hs inv
  obtain ⟨c', _, _, _, _, hlist, w, ⟨N', hN', inv'⟩, hstay⟩ := safeList hnodes hs inv
  have hrun' : myWalker cat node c = some c' := (hrun c).trans hlist
  exact ⟨c', _, _, _, _, hrun', w, ⟨N', hN', inv'⟩, staysIntact_of_children (henter c)
    (intact_of_walkInv inv) hrun' (intact_of_walkInv inv') hstay⟩

theorem Term.safe {a : Node α} (ha : Term cat os a) (hsep : separate a = true) :
    Safe cat os a := by
  cases ha with
  | @column v hv =>
    intro N M c hs inv
    obtain ⟨heap, inOp, hrun, col⟩ :=
      pass.myWalker_operand (a := .var v) hs (.column hv) inv.ordered inv.inOp
    obtain ⟨N', hN', inv'⟩ := inv.ofCollects col
    exact ⟨_, _, _, _, _, hrun, Walked.ofCollects col, ⟨N', hN', inv'⟩,
      staysIntact_leaf rfl rfl (intact_of_walkInv inv) hrun (intact_of_walkInv inv')⟩
  | constant | param =>
    exact safe_of_children (fun b hb => by simp [Node.children] at hb) (fun _ => rfl) fun _ => rfl
  | @op opno args hargs =>
    intro N M c hs inv
    simp only [separate, Bool.and_eq_true, Bool.not_eq_true', separateList_iff] at hsep
    obtain ⟨c', _, hrun, w, h, hstay⟩ :=
      myWalker_operator (fun b hb => (hargs b hb).works (hsep.2 b hb)) hsep.1 hs inv
    exact ⟨c', _, _, _, _, hrun, w, ⟨N, Nat.le_refl _, h.inv⟩, hstay⟩

theorem safe_boolExpr {boolop : BoolExprType} {args : List (Node α)} (hne : args ≠ [])
    (hargs : ∀ a ∈ args, Safe cat os a) : Safe cat os (.boolExpr boolop args) := by
  intro N M c hs inv
  obtain ⟨c1, _, _, _, _, hrun, w, ⟨N1, hN1, inv1⟩, hstay⟩ :=
    safeList hargs (c := c.openBoolExpr) hs inv.openBoolExpr
  have hempty : args.isEmpty = false := by simpa using hne
  have hclose : ∃ c' scopes rtes bools seen, myWalker cat (.boolExpr boolop args) c = some c' ∧
      Walked cat M scopes rtes bools seen c c' ∧ ∃ N' ≥ N, WalkInv N' M c' := by
    cases boolop with
    | notExpr =>
      obtain ⟨c2, hclose, w2, hinv2⟩ := myWalker_closeNot inv hN1 inv1 w
      exact ⟨c2, _, _, _, _, by simp [myWalker, Pass.myWalker, hempty, hrun, hclose], w2, hinv2⟩
    | andExpr =>
      obtain ⟨c2, hclose, w2, hinv2⟩ := myWalker_closeBoolExpr true args.length inv hN1 inv1 w
      exact ⟨c2, _, _, _, _, by simp [myWalker, Pass.myWalker, hempty, hrun, hclose], w2, hinv2⟩
    | orExpr =>
      obtain ⟨c2, hclose, w2, hinv2⟩ := myWalker_closeBoolExpr false args.length inv hN1 inv1 w
      exact ⟨c2, _, _, _, _, by simp [myWalker, Pass.myWalker, hempty, hrun, hclose], w2, hinv2⟩
  obtain ⟨c2, _, _, _, _, hrun2, w2, N2, hN2, inv2⟩ := hclose
  exact ⟨c2, _, _, _, _, hrun2, w2, ⟨N2, hN2, inv2⟩, staysIntact_of_children rfl
    (intact_of_walkInv inv) hrun2 (intact_of_walkInv inv2) hstay⟩

theorem safe_selectFrom {targetList : List (Node α)} {relids : List Oid} {quals : Node α}
    (hquals : Safe cat (relids :: os) quals) :
    Safe cat os (selectFrom targetList relids quals) := by
  intro N M c hs inv
  obtain ⟨schema, hopen, hschema⟩ := pass.openQuery_baseTables cat relids c
  obtain ⟨c1, _, _, _, _, hrun, w, ⟨N', hN', inv1⟩, hstay⟩ := hquals N M (c.enter cat relids schema)
    (hs.enter c.rtes relids) (inv.ofScope _ _ _ _)
  have hrun' : myWalker cat (selectFrom targetList relids quals) c =
      some { c1 with currentTrueVar := c.currentTrueVar } := by
    rw [myWalker, pass.myWalker_selectFrom, hopen, Option.bind_eq_bind, Option.bind_some]
    exact Option.bind_eq_some_iff.mpr ⟨c1, hrun, rfl⟩
  refine ⟨_, _, _, _, _, hrun', Walked.ofQuery hschema w, ⟨N', hN', inv1.ofScope _ _ _ _⟩, ?_⟩
  refine staysIntact_of_children hopen (intact_of_walkInv inv) hrun'
    (intact_of_walkInv (inv1.ofScope _ _ _ _)) fun i child hi => ?_
  obtain ⟨rfl, rfl⟩ : i = 0 ∧ child = quals := by
    simpa [selectFrom, Node.children, List.getElem?_singleton, eq_comm] using hi
  exact ⟨_, rfl, hstay⟩

/-- Where no operator links a list twice, the walker stays intact. -/
theorem Condition.safe {node : Node α} (h : Condition cat os node)
    (hsep : separate node = true) : Safe cat os node := by
  induction h with
  | null =>
    exact safe_of_children (fun b hb => by simp [Node.children] at hb) (fun _ => rfl) fun _ => rfl
  | term ha => exact ha.safe hsep
  | @nullTest os test arg harg =>
    refine safe_of_children (fun b hb => ?_) (fun _ => rfl) fun c => ?_
    · rw [List.mem_singleton.mp hb]
      exact harg.safe hsep
    · simp [myWalker, Pass.myWalker, Node.children, Pass.myWalkerList]
  | boolExpr hne _ ih =>
    rw [separate, separateList_iff] at hsep
    exact safe_boolExpr hne fun a ha => ih a ha (hsep a ha)
  | subLink _ _ ihTest ihQuals =>
    rw [separate, Bool.and_eq_true] at hsep
    refine safe_of_children (fun b hb => ?_) (fun _ => rfl) fun c => ?_
    · simp only [Node.children, List.mem_cons, List.not_mem_nil, or_false] at hb
      rcases hb with rfl | rfl
      · exact ihTest hsep.1
      · exact safe_selectFrom (ihQuals hsep.2)
    · simp [myWalker, Pass.myWalker, Node.children, Pass.myWalkerList]

/-! ### A list that is linked twice -/

section

variable {c c' : ContextWalkerSetConstraint} {p t : Bool}

theorem addVar_cases {v : Var} (h : c.addVar v = some c') :
    (c' = c ∧ c.listOfNotNullInOp.isSome = true) ∨ ∃ rv heap l,
      c.heap.lappend c.listOfNotNullInOp rv = some (heap, l) ∧
        c' = { c with heap, listOfNotNullInOp := l } := by
  simp only [ContextWalkerSetConstraint.addVar, Option.bind_eq_bind, Option.bind_eq_some_iff] at h
  obtain ⟨rv, _, isIn, hin, h⟩ := h
  cases isIn with
  | true =>
    refine .inl ⟨(Option.some.inj h).symm, ?_⟩
    cases hl : c.listOfNotNullInOp with
    | none =>
      rw [hl] at hin
      cases hin
    | some q => rfl
  | false =>
    obtain ⟨⟨heap, l⟩, hrun, h⟩ := Option.bind_eq_some_iff.mp h
    exact .inr ⟨rv, heap, l, hrun, (Option.some.inj h).symm⟩

theorem closeOpExpr_eq (h : c.closeOpExpr = some c') : ∃ heap l,
    c.heap.listConcat c.listOfNotNullToBeTrue c.listOfNotNullInOp = some (heap, l) ∧
      c' = { c with heap, listOfNotNullToBeTrue := l } := by
  obtain ⟨⟨heap, l⟩, hrun, h⟩ := Option.bind_eq_some_iff.mp h
  exact ⟨heap, l, hrun, (Option.some.inj h).symm⟩

/-- The walker's list of columns is a list with its last cell known, empty or not as `p` says. -/
structure Filled (p : Bool) (c : ContextWalkerSetConstraint) : Prop where
  holds : ∃ as, c.heap.Holds c.listOfNotNullInOp as
  isSome : c.listOfNotNullInOp.isSome = p

theorem filled_none (hin : c.listOfNotNullInOp = none) : Filled false c :=
  ⟨⟨[], by rw [hin]; rfl⟩, by rw [hin]; rfl⟩

theorem Filled.addVar (g : Filled p c) {v : Var} (h : c.addVar v = some c') :
    Filled true c' := by
  obtain ⟨as, hl⟩ := g.holds
  rcases addVar_cases h with ⟨rfl, hsome⟩ | ⟨rv, heap, l, hrun, rfl⟩
  · exact ⟨⟨as, hl⟩, hsome⟩
  · obtain ⟨heap', q, hrun', hl', _⟩ := lappend_spec hl rv
    rw [hrun] at hrun'
    cases hrun'
    exact ⟨⟨_, hl'⟩, rfl⟩

/-- What the walker leaves on its list of columns, after a term inside an operator. -/
def Fills (cat : Catalog) (a : Node α) : Prop :=
  ∀ (p t : Bool) (c c' : ContextWalkerSetConstraint), c.ready = true →
    (t = false → Filled p c) → myWalker cat a c = some c' →
    c'.ready = true ∧ (attached t a = false → Filled (pending p a) c')

theorem fillsList {args : List (Node α)} (hargs : ∀ a ∈ args, Fills cat a)
    (hready : c.ready = true) (hg : t = false → Filled p c)
    (hrun : pass.myWalkerList cat args c = some c') :
    c'.ready = true ∧ (attachedList t args = false → Filled (pendingList p args) c') := by
  induction args generalizing p t c with
  | nil =>
    cases hrun
    exact ⟨hready, hg⟩
  | cons a args ih =>
    obtain ⟨c1, hrun1, hrun2⟩ := Option.bind_eq_some_iff.mp hrun
    obtain ⟨hready1, hg1⟩ := hargs a List.mem_cons_self p t c c1 hready hg hrun1
    exact ih (fun b hb => hargs b (List.mem_cons_of_mem _ hb)) hready1 hg1 hrun2

theorem fills_operator {opno : Oid} {args : List (Node α)} (hargs : ∀ a ∈ args, Fills cat a)
    (hsep : attachedList false args = false)
    (hrun : myWalker cat (.opExpr opno args) c = some c') : ∃ c1, c1.ready = true ∧
      Filled (pendingList false args) c1 ∧ c1.closeOpExpr = some c' := by
  rw [myWalker_opExpr] at hrun
  obtain ⟨c1, hrun1, hclose⟩ := Option.bind_eq_some_iff.mp hrun
  obtain ⟨hready, hg⟩ := fillsList (p := false) hargs rfl
    (fun _ => filled_none (c := { c with ready := true, listOfNotNullInOp := none }) rfl) hrun1
  exact ⟨c1, hready, hg hsep, hclose⟩

theorem Term.fills {a : Node α} (ha : Term cat os a) (hsep : separate a = true) :
    Fills cat a := by
  induction ha with
  | @column v _ =>
    intro p t c c' hready hg hrun
    have hadd : c.addVar v = some c' := by
      simpa [myWalker, Pass.myWalker, hready] using hrun
    refine ⟨?_, fun ht => (hg ht).addVar hadd⟩
    rcases addVar_cases hadd with ⟨rfl, _⟩ | ⟨_, _, _, _, rfl⟩ <;> exact hready
  | constant | param =>
    intro p t c c' hready hg hrun
    cases hrun
    exact ⟨hready, hg⟩
  | @op opno args _ ih =>
    intro p t c c' _ _ hrun
    simp only [separate, Bool.and_eq_true, Bool.not_eq_true', separateList_iff] at hsep
    obtain ⟨c1, hready, hg, hclose⟩ :=
      fills_operator (fun a ha => ih a ha (hsep.2 a ha)) hsep.1 hrun
    obtain ⟨heap, l, _, rfl⟩ := closeOpExpr_eq hclose
    refine ⟨hready, fun hpend => ?_⟩
    rw [attached] at hpend
    rw [hpend] at hg
    rw [pending, hpend]
    exact filled_none (Option.isSome_eq_false_iff.mp hg.isSome |> Option.isNone_iff_eq_none.mp)

/-- The walker's list of columns has been linked to the collected ones: it is the list of those, or
a list that ends with a cell of it. -/
def Linked (c : ContextWalkerSetConstraint) : Prop :=
  ∃ p, c.listOfNotNullInOp = some p ∧ (c.listOfNotNullToBeTrue = some p ∨
    ∃ q as list, c.listOfNotNullToBeTrue = some q ∧ q ≠ p ∧ c.heap.Holds (some p) as ∧
      c.heap.lists[q]? = some list ∧ list.tail ∈ as)

/-- Two lists that are linked, from the link on. -/
theorem listConcat_cases {h h' : Heap TrueVar} {l : ListPtr} {q r : Nat}
    (hrun : h.listConcat (some q) (some r) = some (h', l)) : l = some q ∧ q ≠ r ∧
      ∃ l1 l2 tail, h.lists[q]? = some l1 ∧ h.lists[r]? = some l2 ∧
        h.cells[l1.tail]? = some tail ∧
        h' = ⟨h.cells.set l1.tail { tail with next := some l2.head },
          h.lists.set q ⟨l1.length + l2.length, l1.head, l2.tail⟩⟩ := by
  simp only [listConcat, Option.bind_eq_bind] at hrun
  split at hrun
  · cases hrun
  · next hne =>
    simp only [Option.bind_eq_some_iff, Option.some.injEq, Prod.mk.injEq] at hrun
    obtain ⟨l1, hl1, l2, hl2, tail, htail, rfl, rfl⟩ := hrun
    exact ⟨rfl, hne, l1, l2, tail, hl1, hl2, htail, rfl⟩

/-- Linking a list to one that ends on a cell of it leaves it without an end. -/
theorem foreach_listConcat_eq_none {h h' : Heap TrueVar} {l : ListPtr} {q r : Nat} {as : List Nat}
    {list : Header} (hrun : h.listConcat (some q) (some r) = some (h', l))
    (hl : h.Holds (some r) as) (hlist : h.lists[q]? = some list) (htail : list.tail ∈ as) :
    h'.foreach (some r) = none := by
  obtain ⟨_, hne, l1, l2, tail, hl1, hl2, htail1, rfl⟩ := listConcat_cases hrun
  obtain rfl : l1 = list := Option.some.inj (hl1.symm.trans hlist)
  have hlt := (List.getElem?_eq_some_iff.mp htail1).1
  refine hl.foreach_linkBack hl2 ((List.getElem?_set_ne hne).trans hl2) htail
    (fun a _ hat => List.getElem?_set_ne fun e => hat e.symm)
    ⟨_, List.getElem?_set_self hlt, rfl⟩

theorem Filled.linked (g : Filled true c) (hclose : c.closeOpExpr = some c')
    (hc' : Intact c') : Linked c' := by
  obtain ⟨as, hl⟩ := g.holds
  obtain ⟨p, hp⟩ := Option.isSome_iff_exists.mp g.isSome
  obtain ⟨heap, l, hrun, rfl⟩ := closeOpExpr_eq hclose
  refine ⟨p, hp, ?_⟩
  have hends := hc' c.listOfNotNullInOp (by simp [lists])
  rw [hp] at hl hrun hends
  cases hq : c.listOfNotNullToBeTrue with
  | none =>
    rw [hq] at hrun
    cases hrun
    exact .inl rfl
  | some q =>
    rw [hq] at hrun
    obtain ⟨rfl, hne, l1, l2, tail, hl1, hl2, htail, hheap⟩ := listConcat_cases hrun
    -- a list that ended on a cell of the other would leave it without an end
    have hnot : l1.tail ∉ as := fun hmem => by
      rw [foreach_listConcat_eq_none hrun hl hl1 hmem] at hends
      cases hends
    obtain ⟨list, hlist, hpath, hlast⟩ := hl
    obtain rfl : list = l2 := Option.some.inj (hlist.symm.trans hl2)
    subst hheap
    refine .inr ⟨q, as, _, rfl, hne, ⟨list, (List.getElem?_set_ne hne).trans hlist, ?_, hlast⟩,
      List.getElem?_set_self (List.getElem?_eq_some_iff.mp hl1).1, List.mem_of_getLast? hlast⟩
    exact hpath.congr fun a ha => List.getElem?_set_ne fun (e : l1.tail = a) => hnot (e.symm ▸ ha)

theorem Linked.addVar (h : Linked c) {v : Var} (hrun : c.addVar v = some c') : Linked c' := by
  obtain ⟨p, hp, h⟩ := h
  rcases addVar_cases hrun with ⟨rfl, _⟩ | ⟨rv, heap, l, happend, rfl⟩
  · exact ⟨p, hp, h⟩
  rw [hp] at happend
  rcases h with h | ⟨q, as, list, hq, hne, hl, hlist, htail⟩
  · obtain ⟨list, _, h1⟩ := Option.bind_eq_some_iff.mp happend
    obtain ⟨tail, _, h2⟩ := Option.bind_eq_some_iff.mp h1
    cases h2
    exact ⟨p, rfl, .inl h⟩
  · obtain ⟨heap', r, happend', hl', _, hr, f⟩ := lappend_spec hl rv
    rw [happend] at happend'
    cases happend'
    obtain rfl : p = r := hr.elim Option.some.inj fun h => by cases h.1
    refine ⟨p, rfl, .inr ⟨q, _, list, hq, hne, hl', ?_, List.mem_append_left _ htail⟩⟩
    rw [f.header q (List.getElem?_eq_some_iff.mp hlist).1 fun e => hne (Option.some.inj e).symm]
    exact hlist

theorem Linked.not_intact (h : Linked c) (hclose : c.closeOpExpr = some c') : ¬Intact c' := by
  intro hc'
  obtain ⟨p, hp, h⟩ := h
  obtain ⟨heap, l, hrun, rfl⟩ := closeOpExpr_eq hclose
  rw [hp] at hrun
  rcases h with h | ⟨q, as, list, hq, hne, hl, hlist, htail⟩
  · rw [h] at hrun
    exact (listConcat_cases hrun).2.1 rfl
  · rw [hq] at hrun
    have hends := hc' c.listOfNotNullInOp (by simp [lists])
    rw [hp] at hends
    rw [foreach_listConcat_eq_none hrun hl hlist htail] at hends
    cases hends

/-- Columns and constants after the arithmetic leave the list linked. -/
theorem Linked.operands {args : List (Node α)} (hargs : ∀ a ∈ args, Term cat os a)
    (hop : ∀ opno ys, .opExpr opno ys ∉ args) (hready : c.ready = true) (h : Linked c)
    (hrun : pass.myWalkerList cat args c = some c') : Linked c' := by
  induction args generalizing c with
  | nil =>
    cases hrun
    exact h
  | cons a args ih =>
    obtain ⟨c1, hrun1, hrun2⟩ := Option.bind_eq_some_iff.mp hrun
    have hstep : c1.ready = true ∧ Linked c1 := by
      cases hargs a List.mem_cons_self with
      | @column v _ =>
        have hadd : c.addVar v = some c1 := by
          simpa [Pass.myWalker, hready] using hrun1
        refine ⟨?_, h.addVar hadd⟩
        rcases addVar_cases hadd with ⟨rfl, _⟩ | ⟨_, _, _, _, rfl⟩ <;> exact hready
      | constant | param =>
        cases hrun1
        exact ⟨hready, h⟩
      | @op opno ys _ => exact absurd List.mem_cons_self (hop opno ys)
    exact ih (fun b hb => hargs b (List.mem_cons_of_mem _ hb))
      (fun opno ys hmem => hop opno ys (List.mem_cons_of_mem _ hmem)) hstep.1 hstep.2 hrun2

end

/-- Where the list may be linked at the end, the last arithmetic leaves columns on it. -/
theorem exists_last_operator {args : List (Node α)} {t : Bool} (h : attachedList t args = true) :
    (t = true ∧ ∀ opno ys, .opExpr opno ys ∉ args) ∨
      ∃ left opno ys right, args = left ++ .opExpr opno ys :: right ∧
        pendingList false ys = true ∧ ∀ opno ys, .opExpr opno ys ∉ right := by
  induction args generalizing t with
  | nil => exact .inl ⟨h, fun _ _ hmem => absurd hmem List.not_mem_nil⟩
  | cons a args ih =>
    rcases ih h with ⟨ht, hnone⟩ | ⟨left, opno, ys, right, rfl, hpend, hnone⟩
    · by_cases hop : ∃ opno ys, a = .opExpr opno ys
      · obtain ⟨opno, ys, rfl⟩ := hop
        exact .inr ⟨[], opno, ys, args, rfl, ht, hnone⟩
      · refine .inl ⟨?_, fun opno ys hmem => ?_⟩
        · unfold attached at ht
          split at ht
          · next opno ys => exact absurd ⟨opno, ys, rfl⟩ hop
          · exact ht
        · rcases List.mem_cons.mp hmem with he | hmem
          · exact hop ⟨opno, ys, he.symm⟩
          · exact hnone opno ys hmem
    · exact .inr ⟨a :: left, opno, ys, right, rfl, hpend, hnone⟩

theorem myWalkerList_concat (cat : Catalog) (left right : List (Node α))
    (c : ContextWalkerSetConstraint) :
    pass.myWalkerList cat (left ++ right) c =
      (pass.myWalkerList cat left c).bind (pass.myWalkerList cat right) := by
  induction left generalizing c with
  | nil => rfl
  | cons a left ih => simp [Pass.myWalkerList, ih, Option.bind_assoc]

theorem not_staysIntact_operator {opno : Oid} {args : List (Node α)}
    (hargs : ∀ a ∈ args, Term cat os a) (hsep : ∀ a ∈ args, separate a = true)
    (hatt : attachedList false args = true) (c : ContextWalkerSetConstraint) :
    ¬StaysIntact cat (.opExpr opno args) c := by
  intro hstay
  obtain ⟨h, _⟩ | ⟨left, opno', ys, right, rfl, hpend, hright⟩ := exists_last_operator hatt
  · cases h
  have hmem : (.opExpr opno' ys : Node α) ∈ left ++ .opExpr opno' ys :: right := by simp
  -- the inner operator is entered in `cy` and left in `cy'`, and the outer one left in `c'`
  obtain ⟨cy, cy', hat, _, hrun, hintact⟩ := hstay [left.length] (.opExpr opno' ys)
    (by simp [nodeAt, Node.children])
  obtain ⟨_, c', hself, _, houter, hintact'⟩ := hstay [] _ rfl
  cases hself
  simp only [Pass.walkerAt, Pass.enterWalker, Node.children, List.take_left,
    List.getElem?_append_right (Nat.le_refl _), Nat.sub_self, List.getElem?_cons_zero,
    Option.bind_eq_bind, Option.bind_some, Option.bind_eq_some_iff, Option.some.injEq,
    Prod.mk.injEq, true_and] at hat
  obtain ⟨_, hleft, rfl⟩ := hat
  rw [myWalker_opExpr, myWalkerList_concat] at houter
  obtain ⟨ce, hlist, hclose⟩ := Option.bind_eq_some_iff.mp houter
  obtain ⟨_, hleft', hrest⟩ := Option.bind_eq_some_iff.mp hlist
  cases hleft.symm.trans hleft'
  obtain ⟨_, hrun', hright'⟩ := Option.bind_eq_some_iff.mp hrest
  cases hrun.symm.trans hrun'
  have hysep := hsep _ hmem
  simp only [separate, Bool.and_eq_true, Bool.not_eq_true', separateList_iff] at hysep
  obtain ⟨c1, hready, hg, hcloseY⟩ :=
    fills_operator (fun a ha => ((hargs _ hmem).arg a ha).fills (hysep.2 a ha)) hysep.1 hrun
  have hlinked : Linked cy' := (hpend ▸ hg).linked hcloseY hintact
  have hready' : cy'.ready = true := by
    obtain ⟨_, _, _, rfl⟩ := closeOpExpr_eq hcloseY
    exact hready
  exact (hlinked.operands (fun a ha => hargs a (by simp [ha])) hright hready' hright').not_intact
    hclose hintact'

theorem StaysIntact.child {node child : Node α} {c : ContextWalkerSetConstraint}
    (h : StaysIntact cat node c) {i : Nat} (hchild : node.children[i]? = some child) :
    ∃ ci, StaysIntact cat child ci := by
  obtain ⟨ci, _, hat, _⟩ := h [i] child (by simp [nodeAt, hchild])
  simp only [Pass.walkerAt, hchild, Option.bind_eq_bind, Option.bind_some,
    Option.bind_eq_some_iff, Option.some.injEq, Prod.mk.injEq, true_and] at hat
  obtain ⟨c0, henter, c1, hlist, rfl⟩ := hat
  refine ⟨c1, fun path target htarget => ?_⟩
  obtain ⟨c2, c3, hat, hrest⟩ := h (i :: path) target (by simp [nodeAt, hchild, htarget])
  simp only [Pass.walkerAt, henter, hlist, hchild, Option.bind_eq_bind, Option.bind_some] at hat
  exact ⟨c2, c3, hat, hrest⟩

/-- One child on which the walker does not stay intact is enough. -/
theorem not_staysIntact_of_child {node child : Node α} (hmem : child ∈ node.children)
    (h : ∀ c, ¬StaysIntact cat child c) (c : ContextWalkerSetConstraint) :
    ¬StaysIntact cat node c := by
  intro hstay
  obtain ⟨i, hi⟩ := List.mem_iff_getElem?.mp hmem
  obtain ⟨ci, hci⟩ := hstay.child hi
  exact h ci hci

theorem exists_of_separateList {nodes : List (Node α)} (h : separateList nodes = false) :
    ∃ a ∈ nodes, separate a = false := by
  by_contra hall
  have : separateList nodes = true := separateList_iff.mpr fun a ha => by
    by_contra hne
    exact hall ⟨a, ha, by simpa using hne⟩
  rw [h] at this
  cases this

theorem Term.not_staysIntact {a : Node α} (ha : Term cat os a) (hsep : separate a = false)
    (c : ContextWalkerSetConstraint) : ¬StaysIntact cat a c := by
  induction ha generalizing c with
  | column _ | constant | param => cases hsep
  | @op opno args hargs ih =>
    -- the innermost operator whose list is linked twice
    by_cases hall : separateList args = true
    · have hatt : attachedList false args = true := by simpa [separate, hall] using hsep
      exact not_staysIntact_operator hargs (separateList_iff.mp hall) hatt c
    · obtain ⟨b, hb, hbsep⟩ := exists_of_separateList (by simpa using hall)
      exact not_staysIntact_of_child hb (ih b hb hbsep) c

theorem Condition.not_staysIntact {node : Node α} (h : Condition cat os node)
    (hsep : separate node = false) (c : ContextWalkerSetConstraint) :
    ¬StaysIntact cat node c := by
  induction h generalizing c with
  | null => cases hsep
  | term ha => exact ha.not_staysIntact hsep c
  | nullTest harg =>
    exact not_staysIntact_of_child (List.mem_singleton.mpr rfl) (harg.not_staysIntact hsep) c
  | boolExpr _ _ ih =>
    obtain ⟨a, ha, hasep⟩ := exists_of_separateList hsep
    exact not_staysIntact_of_child ha (ih a ha hasep) c
  | @subLink os kind testexpr targetList relids quals _ _ ihTest ihQuals =>
    rcases Bool.and_eq_false_iff.mp hsep with hsep | hsep
    · exact not_staysIntact_of_child (by simp [Node.children]) (ihTest hsep) c
    · have hquery : ∀ c, ¬StaysIntact cat (selectFrom targetList relids quals) c :=
        not_staysIntact_of_child (List.mem_singleton.mpr rfl) (ihQuals hsep)
      exact not_staysIntact_of_child (by simp [Node.children]) hquery c

/-- The walker returns from a query with intact lists on the way if, and only if, no operator links
a list twice. -/
theorem myWalker_staysIntact_iff (cat : Catalog) (targetList : List (Node α)) (relids : List Oid)
    (quals : Node α) (h : Condition cat [relids] quals) :
    StaysIntact cat (selectFrom targetList relids quals) makeContextWalkerSetConstraint ↔
      separate quals = true := by
  constructor
  · intro hstay
    by_contra hsep
    exact not_staysIntact_of_child (List.mem_singleton.mpr rfl)
      (h.not_staysIntact (by simpa using hsep)) _ hstay
  · intro hsep
    obtain ⟨_, _, _, _, _, _, _, _, hstay⟩ :=
      safe_selectFrom (h.safe hsep) 0 0 makeContextWalkerSetConstraint trivial walkInv_make
    exact hstay

/-- The sum of two integers. -/
def plus (a b : Node Int) : Node Int := .opExpr 551 [a, b]

/-- The comparison `e = s.b` in a query over two tables `r` and `s`. -/
def equalsSecond (e : Node Int) : Node Int := .opExpr 96 [e, .var ⟨2, 2, 0⟩]

theorem equalsSecond_condition {e : Node Int} (he : Term (Catalog.nullable 2) [[1, 2]] e) :
    Condition (Catalog.nullable 2) [[1, 2]] (equalsSecond e) := by
  refine .term (.op ?_)
  simp only [List.forall_mem_cons, List.not_mem_nil, false_imp_iff, implies_true, and_true]
  exact ⟨he, .column ⟨2, rfl, by decide, by decide⟩⟩

theorem plus_term {a b : Node Int} (ha : Term (Catalog.nullable 2) [[1, 2]] a)
    (hb : Term (Catalog.nullable 2) [[1, 2]] b) :
    Term (Catalog.nullable 2) [[1, 2]] (plus a b) := by
  refine .op ?_
  simp only [List.forall_mem_cons, List.not_mem_nil, false_imp_iff, implies_true, and_true]
  exact ⟨ha, hb⟩

/-- In `r.a + (1 + 2) = s.b` the last arithmetic of each operator leaves no column. -/
theorem myWalker_staysIntact_constantsLast :
    StaysIntact (Catalog.nullable 2) (selectFrom [] [1, 2]
      (equalsSecond (plus (.var ⟨1, 1, 0⟩) (plus (.const (some 1)) (.const (some 2))))))
      makeContextWalkerSetConstraint :=
  (myWalker_staysIntact_iff (Catalog.nullable 2) [] [1, 2] _
    (equalsSecond_condition (plus_term (.column ⟨1, rfl, by decide, by decide⟩)
      (plus_term .constant .constant)))).mpr (by decide)

/-- In `r.a + 1 = s.b` the sum links the list with `r.a`, which becomes the list of the collected
columns, and at the end of the comparison that list is linked to itself. -/
theorem myWalker_staysIntact_fails :
    Condition (Catalog.nullable 2) [[1, 2]]
      (equalsSecond (plus (.var ⟨1, 1, 0⟩) (.const (some 1)))) ∧
    myWalker (Catalog.nullable 2) (selectFrom [] [1, 2]
      (equalsSecond (plus (.var ⟨1, 1, 0⟩) (.const (some 1))))) makeContextWalkerSetConstraint =
        none ∧
    ¬StaysIntact (Catalog.nullable 2) (selectFrom [] [1, 2]
      (equalsSecond (plus (.var ⟨1, 1, 0⟩) (.const (some 1))))) makeContextWalkerSetConstraint := by
  have hnone : myWalker (Catalog.nullable 2) (selectFrom [] [1, 2]
      (equalsSecond (plus (.var ⟨1, 1, 0⟩) (.const (some 1))))) makeContextWalkerSetConstraint =
        none := rfl
  refine ⟨equalsSecond_condition (plus_term (.column ⟨1, rfl, by decide, by decide⟩) .constant),
    hnone, fun hstay => ?_⟩
  obtain ⟨_, _, hself, _, hrun, _⟩ := hstay [] _ rfl
  cases hself
  rw [hnone] at hrun
  cases hrun

end Infed.Codd
