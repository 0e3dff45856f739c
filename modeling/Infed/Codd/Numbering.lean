import Infed.Codd.Pass
import Infed.Path

/-! Which entry `my_mutator` reads at an AND/OR node.  The walker appends an entry when it leaves
the node, after those of the nodes inside it and to its left; the mutator reads from the end of the
list when it enters the node, after as many reads as there are nodes around it and to its left.
Both are the same entry if the tree has as many AND/OR nodes to the left of the node as to its
right. -/

namespace Infed.Codd

variable {α : Type} {cat : Catalog}

mutual

/-- No AND/OR node has two arguments with AND/OR nodes in them. -/
def chained : Node α → Bool
  | .boolExpr .notExpr args => chainedList args
  | .boolExpr _ args => decide (args.countP (0 < boolCount ·) ≤ 1) && chainedList args
  | .subLink _ _ subselect => chained subselect
  | .query _ _ _ quals => chained quals
  | _ => true

def chainedList : List (Node α) → Bool
  | [] => true
  | node :: nodes => chained node && chainedList nodes

end

theorem chainedList_iff {nodes : List (Node α)} :
    chainedList nodes = true ↔ ∀ a ∈ nodes, chained a = true := by
  induction nodes with
  | nil => simp [chainedList]
  | cons a nodes ih => simp [chainedList, ih]

/-! ### Balanced paths -/

/-- With `l` more AND/OR nodes to the left and `r` more to the right, every AND/OR node has as many
to its left as to its right. -/
def Balanced (l r : Nat) (node : Node α) : Prop :=
  ∀ path target, nodeAt path node = some target → target.isAndOr = true →
    l + before path node = r + after path node

theorem balanced_iff_children {l r : Nat} {node : Node α} :
    Balanced l r node ↔ (node.isAndOr = true → l = r) ∧
      ∀ i child, node.children[i]? = some child →
        Balanced (l + boolCountList (node.children.take i))
          (r + boolCountList (node.children.drop (i + 1))) child := by
  constructor
  · intro h
    refine ⟨fun hb => by simpa [before, after] using h [] node rfl hb, ?_⟩
    intro i child hchild path target hpath hb
    have hstep := h (i :: path) target (by simp [nodeAt, hchild, hpath]) hb
    simpa [before, after, hchild, Nat.add_assoc] using hstep
  · rintro ⟨hroot, hchildren⟩ path target hpath hb
    cases path with
    | nil =>
      cases hpath
      simpa [before, after] using hroot hb
    | cons i path =>
      obtain ⟨child, hchild, hrest⟩ := Option.bind_eq_some_iff.mp hpath
      have hstep := hchildren i child hchild path target hrest hb
      simpa [before, after, hchild, Nat.add_assoc] using hstep

theorem boolCount_le_boolCountList {a : Node α} {nodes : List (Node α)} (ha : a ∈ nodes) :
    boolCount a ≤ boolCountList nodes := by
  induction nodes with
  | nil => cases ha
  | cons b nodes ih =>
    rw [boolCountList]
    rcases List.mem_cons.mp ha with rfl | ha
    · exact Nat.le_add_right _ _
    · exact (ih ha).trans (Nat.le_add_left _ _)

/-- A tree with an AND/OR node counts it. -/
theorem boolCount_pos {os : Scopes} {node target : Node α} {path : List Nat}
    (h : Visited cat os node) (hpath : nodeAt path node = some target)
    (hb : target.isAndOr = true) : 0 < boolCount node := by
  induction path generalizing os node with
  | nil =>
    cases hpath
    exact Node.boolCount_pos hb
  | cons i path ih =>
    obtain ⟨child, hchild, hrest⟩ := Option.bind_eq_some_iff.mp hpath
    have hmem := List.mem_of_getElem? hchild
    have hpos := ih (h.child hmem) hrest
    have hle := boolCount_le_boolCountList hmem
    have hcount := h.counts.1
    omega

theorem balanced_of_boolCount_eq_zero {os : Scopes} {node : Node α} (h : Visited cat os node)
    (hzero : boolCount node = 0) (l r : Nat) : Balanced l r node := by
  intro path target hpath hb
  have := boolCount_pos h hpath hb
  omega

/-! ### Balanced arguments -/

/-- Where every argument with AND/OR nodes has as many of them to its left as to its right, there is
at most one such argument. -/
theorem countP_le_one_of_balanced {l r : Nat} {args : List (Node α)}
    (h : ∀ i a, args[i]? = some a → boolCount a = 0 ∨
      l + boolCountList (args.take i) = r + boolCountList (args.drop (i + 1))) :
    args.countP (0 < boolCount ·) ≤ 1 := by
  induction args generalizing l with
  | nil => simp
  | cons a args ih =>
    have htail : ∀ i b, args[i]? = some b → boolCount b = 0 ∨
        l + boolCount a + boolCountList (args.take i) =
          r + boolCountList (args.drop (i + 1)) := fun i b hb => by
      simpa [boolCountList, Nat.add_assoc] using h (i + 1) b (by simpa using hb)
    by_cases hzero : boolCount a = 0
    · have := ih htail
      simpa [List.countP_cons, hzero] using this
    · have hhead := (h 0 a rfl).resolve_left hzero
      simp only [List.take_zero, boolCountList, List.drop_succ_cons, List.drop_zero] at hhead
      -- what is to the left of a later argument is already more than what is to its right
      have hnone : args.countP (0 < boolCount ·) = 0 := by
        rw [List.countP_eq_zero]
        intro b hb hpos
        obtain ⟨i, hi⟩ := List.mem_iff_getElem?.mp hb
        have hsum : boolCountList (args.drop (i + 1)) ≤ boolCountList args := by
          rw [← List.take_append_drop (i + 1) args, boolCountList_append, List.take_append_drop]
          exact Nat.le_add_left _ _
        rcases htail i b hi with h0 | h0
        · simp [h0] at hpos
        · omega
      rw [List.countP_cons, hnone]
      split <;> omega

theorem boolCountList_eq_zero {nodes : List (Node α)}
    (h : nodes.countP (0 < boolCount ·) = 0) : boolCountList nodes = 0 := by
  induction nodes with
  | nil => rfl
  | cons a nodes ih =>
    rw [List.countP_cons] at h
    have hhead : boolCount a = 0 := by
      by_contra hne
      simp [Nat.pos_of_ne_zero hne] at h
    rw [boolCountList, hhead, ih (by omega)]

/-- An argument with AND/OR nodes that is the only one has none to its left and none to its
right. -/
theorem boolCountList_around {args : List (Node α)}
    (h : args.countP (0 < boolCount ·) ≤ 1) {i : Nat} {a : Node α} (ha : args[i]? = some a)
    (hpos : boolCount a ≠ 0) :
    boolCountList (args.take i) = 0 ∧ boolCountList (args.drop (i + 1)) = 0 := by
  obtain ⟨hlt, rfl⟩ := List.getElem?_eq_some_iff.mp ha
  rw [← List.take_append_drop i args, ← List.getElem_cons_drop hlt, List.countP_append,
    List.countP_cons, if_pos (by simpa using Nat.pos_of_ne_zero hpos)] at h
  exact ⟨boolCountList_eq_zero (by omega), boolCountList_eq_zero (by omega)⟩

theorem balanced_boolExpr_iff {boolop : BoolExprType} (hop : boolop ≠ .notExpr) {l r : Nat}
    {args : List (Node α)} (hargs : ∀ a ∈ args, ∀ l r, Balanced l r a ↔
      (boolCount a = 0 ∨ l = r) ∧ chained a = true) :
    Balanced l r (.boolExpr boolop args) ↔
      (boolCount (.boolExpr boolop args) = 0 ∨ l = r) ∧
        chained (.boolExpr boolop args) = true := by
  have hnode : boolCount (.boolExpr boolop args) = boolCountList args + 1 ∧
      (.boolExpr boolop args : Node α).isAndOr = true ∧
      chained (.boolExpr boolop args) =
        (decide (args.countP (0 < boolCount ·) ≤ 1) && chainedList args) := by
    cases boolop with
    | notExpr => exact absurd rfl hop
    | andExpr | orExpr => exact ⟨rfl, rfl, rfl⟩
  obtain ⟨hcount, hb, hchained⟩ := hnode
  rw [balanced_iff_children, hcount, hchained, hb, Bool.and_eq_true, decide_eq_true_iff,
    chainedList_iff]
  simp only [forall_const, Nat.add_eq_zero_iff, Nat.one_ne_zero, and_false, false_or, Node.children]
  refine and_congr_right fun heq => ?_
  subst heq
  constructor
  · intro h
    refine ⟨countP_le_one_of_balanced (l := l) (r := l) fun i a ha => ?_, fun a ha => ?_⟩
    · exact ((hargs a (List.mem_of_getElem? ha) _ _).mp (h i a ha)).1
    · obtain ⟨i, hi⟩ := List.mem_iff_getElem?.mp ha
      exact ((hargs a ha _ _).mp (h i a hi)).2
  · rintro ⟨hone, hall⟩ i a ha
    have hmem := List.mem_of_getElem? ha
    refine (hargs a hmem _ _).mpr ⟨?_, hall a hmem⟩
    by_cases hzero : boolCount a = 0
    · exact .inl hzero
    · obtain ⟨h1, h2⟩ := boolCountList_around hone ha hzero
      exact .inr (by rw [h1, h2])

/-- A node with one child is balanced as its child is. -/
theorem balanced_iff_child {l r : Nat} {node : Node α} (child : Node α) (hb : node.isAndOr = false)
    (hchildren : node.children = [child]) : Balanced l r node ↔ Balanced l r child := by
  rw [balanced_iff_children, hb, hchildren]
  constructor
  · exact fun h => h.2 0 child rfl
  · refine fun h => ⟨fun hf => absurd hf (by simp), fun i a ha => ?_⟩
    cases i with
    | zero =>
      cases ha
      exact h
    | succ i => simp at ha

theorem balanced_iff {os : Scopes} {node : Node α} (h : Cond (Atom cat) True os node)
    (l r : Nat) : Balanced l r node ↔ (boolCount node = 0 ∨ l = r) ∧ chained node = true := by
  induction h generalizing l r with
  | @leaf os a ha =>
    have hzero : boolCount a = 0 ∧ chained a = true := by cases ha <;> exact ⟨rfl, rfl⟩
    exact iff_of_true (balanced_of_boolCount_eq_zero (.cond (.leaf ha)) hzero.1 l r)
      ⟨.inl hzero.1, hzero.2⟩
  | @null os =>
    have hvis : Visited cat os (.null : Node α) := .cond .null
    exact iff_of_true (balanced_of_boolCount_eq_zero hvis rfl l r) ⟨.inl rfl, rfl⟩
  | and _ _ ih => exact balanced_boolExpr_iff (by simp) ih
  | or _ _ ih => exact balanced_boolExpr_iff (by simp) ih
  | @not _ a _ _ ih =>
    rw [balanced_iff_child a rfl rfl, ih]
    simp [boolCount, boolCountList, chained, chainedList]
  | @exist os targetList relids quals _ ih =>
    have hvis : Visited cat os (.null : Node α) := .cond .null
    have hsub : Balanced l r (existsFrom targetList relids quals) ↔
        Balanced l r (selectFrom targetList relids quals) := by
      rw [balanced_iff_children]
      constructor
      · exact fun h => h.2 1 _ rfl
      · refine fun h => ⟨fun hf => absurd hf (by simp [existsFrom, Node.isAndOr]), fun i a ha => ?_⟩
        rcases i with _ | _ | i
        · cases ha
          exact balanced_of_boolCount_eq_zero hvis rfl _ _
        · cases ha
          exact h
        · simp [existsFrom, Node.children] at ha
    rw [hsub, balanced_iff_child quals rfl rfl, ih]
    simp [existsFrom, selectFrom, boolCount, chained]

/-! ### Entries -/

/-- At the AND/OR node `target`, the position that the mutator reads, in either list, is that of the
entry which the walker appended for the node: the last one when it leaves the node. -/
def ReadsOwnEntry (cat : Catalog) (q : Node α) (c : ContextModifier α) (path : List Nat)
    (target : Node α) : Prop :=
  ∃ m w w', pass.mutatorAt path q c = some (target, m) ∧
    pass.walkerAt cat path q makeContextWalkerSetConstraint = some (target, w) ∧
    myWalker cat target w = some w' ∧
    (m.listListTrue.length : Int) - m.whereIAm - 1 = (w'.listListTrue.length : Int) - 1 ∧
    (m.listListTrue.length : Int) - m.whereIAm - 1 = (w'.listListFalse.length : Int) - 1

/-- The mutator reads the node's own entry where the tree has as many AND/OR nodes to the left of
the path as to its right. -/
theorem readsOwnEntry_iff {targetList : List (Node α)} {relids : List Oid} {quals : Node α}
    (h : Cond (Atom cat) True [relids] quals) {positive : Bool} {c : ContextModifier α}
    (prep : Prepared cat (selectFrom targetList relids quals) positive c) {path : List Nat}
    {target : Node α} (hpath : nodeAt path (selectFrom targetList relids quals) = some target) :
    ReadsOwnEntry cat (selectFrom targetList relids quals) c path target ↔
      before path (selectFrom targetList relids quals) =
        after path (selectFrom targetList relids quals) := by
  have hvis : Visited cat [] (selectFrom targetList relids quals) := .query h
  have hin : MutatorIn cat (fun _ => True) [] .root 0 (selectFrom targetList relids quals) c := by
    refine ⟨hvis, trivial, fun hq => (by cases hq), ?_, fun _ _ => trivial⟩
    exact ⟨prep.atStart.queries, prep.atStart.bools, prep.atStart.lengths,
      fun _ _ _ _ => trivial, fun _ _ _ _ => trivial⟩
  have hin' : WalkerIn cat [] (selectFrom targetList relids quals) makeContextWalkerSetConstraint :=
    ⟨hvis, trivial, 0, 0, walkInv_make⟩
  have hdown : GoesDown (α := α) cat fun _ _ _ _ => True := fun _ _ _ _ _ _ _ _ _ _ => trivial
  obtain ⟨_, _, _, m, hm, _, _, hcount, hlist, _⟩ :=
    hin.run (P := pass) (fun _ => rfl) hdown trivial hpath
  obtain ⟨_, w, hw, hat, ht, hf⟩ := hin'.run (P := pass) hpath
  obtain ⟨N, M, inv⟩ := hat.inv
  obtain ⟨w', hw', walked, _⟩ := pass.walks_visited hat.visited N M w hat.resolves inv
  obtain ⟨newT, hnewT, hlenT⟩ := walked.entriesTrue
  obtain ⟨newF, hnewF, hlenF⟩ := walked.entriesFalse
  have hlenT' : w'.listListTrue.length =
      before path (selectFrom targetList relids quals) + boolCount target := by
    rw [hnewT, List.length_append, ht, hlenT]
    simp [makeContextWalkerSetConstraint]
  have hlenF' : w'.listListFalse.length =
      before path (selectFrom targetList relids quals) + boolCount target := by
    rw [hnewF, List.length_append, hf, hlenF]
    simp [makeContextWalkerSetConstraint]
  rw [prep.whereIAm] at hcount
  have hlen := prep.lengthTrue
  constructor
  · rintro ⟨m1, w1, w1', hm1, hw1, hw1', hpos, _⟩
    cases hm.symm.trans hm1
    cases hw.symm.trans hw1
    cases hw'.symm.trans hw1'
    rw [hlist] at hpos
    omega
  · intro heq
    refine ⟨m, w, w', hm, hw, hw', ?_, ?_⟩ <;> rw [hlist] <;> omega

/-- The two traversals agree on the number of every AND/OR node exactly if no AND/OR node has two
arguments with AND/OR nodes in them. -/
theorem readsOwnEntry_iff_chained (cat : Catalog) (targetList : List (Node α)) (relids : List Oid)
    (quals : Node α) (h : Cond (Atom cat) True [relids] quals) (positive : Bool) :
    ∃ w c, myWalker cat (selectFrom targetList relids quals) makeContextWalkerSetConstraint =
        some w ∧ makeContextModifier positive w = some c ∧
      ((∀ path target, nodeAt path (selectFrom targetList relids quals) = some target →
        target.isAndOr = true →
          ReadsOwnEntry cat (selectFrom targetList relids quals) c path target) ↔
        chained quals = true) := by
  obtain ⟨w, hwalk, hmake⟩ := pass.prepares targetList h
  obtain ⟨c, hc, prep⟩ := hmake positive
  refine ⟨w, c, hwalk, hc, ?_⟩
  have hbalanced : Balanced 0 0 (selectFrom targetList relids quals) ↔ chained quals = true := by
    rw [balanced_iff_child quals rfl rfl, balanced_iff h]
    simp
  rw [← hbalanced, Balanced]
  refine forall_congr' fun path => forall_congr' fun target => forall_congr' fun hpath =>
    forall_congr' fun _ => ?_
  rw [readsOwnEntry_iff h prep hpath, Nat.zero_add, Nat.zero_add]

/-- `r.attno = x OR r.attno = y`. -/
def oneOf (attno : Nat) (x y : Int) : Node Int :=
  .boolExpr .orExpr [compared 96 ⟨1, attno, 0⟩ x, compared 96 ⟨1, attno, 0⟩ y]

theorem oneOf_cond {attno : Nat} (h1 : 1 ≤ attno) (h2 : attno ≤ 2) (x y : Int) :
    Cond (Atom (Catalog.nullable 2)) True [[1]] (oneOf attno x y) := by
  refine .or (by simp) ?_
  simp only [List.forall_mem_cons, List.not_mem_nil, false_imp_iff, implies_true, and_true]
  exact ⟨.leaf (.compared ⟨1, rfl, h1, h2⟩ 96 x), .leaf (.compared ⟨1, rfl, h1, h2⟩ 96 y)⟩

/-- `(r.a = 1 OR r.a = 2) AND r.attno = 3`. -/
def oneOr (attno : Nat) : Node Int :=
  .boolExpr .andExpr [oneOf 1 1 2, compared 96 ⟨1, attno, 0⟩ 3]

theorem oneOr_cond {attno : Nat} (h1 : 1 ≤ attno) (h2 : attno ≤ 2) :
    Cond (Atom (Catalog.nullable 2)) True [[1]] (oneOr attno) :=
  .and (by simp) (List.forall_mem_cons.mpr ⟨oneOf_cond (by decide) (by decide) 1 2,
    List.forall_mem_singleton.mpr (.leaf (.compared ⟨1, rfl, h1, h2⟩ 96 3))⟩)

/-- For `(r.a = 1 OR r.a = 2) AND r.b = 3`, of whose arguments one has an OR. -/
theorem readsOwnEntry_iff_chained_oneOr :
    ∃ w c, myWalker (Catalog.nullable 2) (selectFrom [] [1] (oneOr 2))
        makeContextWalkerSetConstraint = some w ∧
      makeContextModifier true w = some c ∧
      ((∀ path target, nodeAt path (selectFrom [] [1] (oneOr 2)) = some target →
          target.isAndOr = true →
        ReadsOwnEntry (Catalog.nullable 2) (selectFrom [] [1] (oneOr 2)) c path target) ↔
        chained (oneOr 2) = true) :=
  readsOwnEntry_iff_chained (Catalog.nullable 2) [] [1] _ (oneOr_cond (by decide) (by decide)) true

/-- In `(r.a = 1 OR r.a = 2) AND (r.b = 3 OR r.b = 4)` the walker appends the entry of the first OR
at position 0, and the mutator reads position 1. -/
theorem readsOwnEntry_fails_twoOrs :
    ∃ w c, myWalker (Catalog.nullable 2) (selectFrom [] [1]
        (.boolExpr .andExpr [oneOf 1 1 2, oneOf 2 3 4])) makeContextWalkerSetConstraint = some w ∧
      makeContextModifier true w = some c ∧
      nodeAt [0, 0] (selectFrom [] [1] (.boolExpr .andExpr [oneOf 1 1 2, oneOf 2 3 4])) =
        some (oneOf 1 1 2) ∧
      (oneOf 1 1 2).isAndOr = true ∧
      ¬ReadsOwnEntry (Catalog.nullable 2)
        (selectFrom [] [1] (.boolExpr .andExpr [oneOf 1 1 2, oneOf 2 3 4])) c [0, 0]
        (oneOf 1 1 2) := by
  refine ⟨_, _, rfl, rfl, rfl, rfl, ?_⟩
  rintro ⟨m, w, w', hm, hw, hw', hpos, _⟩
  cases hm
  cases hw
  cases hw'
  revert hpos
  decide

end Infed.Codd
