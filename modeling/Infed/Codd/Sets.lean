import Infed.Codd.Numbering
import Infed.Codd.Recorded

/-! The sets that `my_walker` records, against the inductive definition.  After the walk, the list
of an AND/OR node holds the node's own set together with what the later arguments of the enclosing
node added, so it is the node's set only where that adds nothing. -/

namespace Infed.Codd

open CellList Heap

variable {α : Type} {cat : Catalog}

/-! ### The nodes in the order of their entries -/

mutual

/-- The sets of the AND/OR nodes of a tree, in the order in which the walker leaves them. -/
def ownSets (side : Bool) : Scopes → Node α → List (Finset Column)
  | os, .boolExpr .notExpr args => ownSetsList side os args
  | os, .boolExpr boolop args =>
    ownSetsList side os args ++ [notNull side os (.boolExpr boolop args)]
  | os, .subLink _ _ subselect => ownSets side os subselect
  | os, .query _ rtable _ quals => ownSets side (rtable.map relidOf :: os) quals
  | _, _ => []

def ownSetsList (side : Bool) : Scopes → List (Node α) → List (Finset Column)
  | _, [] => []
  | os, node :: nodes => ownSets side os node ++ ownSetsList side os nodes

end

mutual

/-- The AND/OR nodes of a tree with the tables in scope there, in the same order. -/
def andOrs : Scopes → Node α → List (Scopes × Node α)
  | os, .boolExpr .notExpr args => andOrsList os args
  | os, .boolExpr boolop args => andOrsList os args ++ [(os, .boolExpr boolop args)]
  | os, .subLink _ _ subselect => andOrs os subselect
  | os, .query _ rtable _ quals => andOrs (rtable.map relidOf :: os) quals
  | _, _ => []

def andOrsList : Scopes → List (Node α) → List (Scopes × Node α)
  | _, [] => []
  | os, node :: nodes => andOrs os node ++ andOrsList os nodes

end

mutual

theorem ownSets_eq_map (side : Bool) : ∀ (os : Scopes) (node : Node α),
    ownSets side os node = (andOrs os node).map fun n => notNull side n.1 n.2
  | os, .boolExpr .notExpr args => ownSetsList_eq_map side os args
  | os, .boolExpr .andExpr args | os, .boolExpr .orExpr args => by
    rw [ownSets, andOrs, ownSetsList_eq_map side os args, List.map_append]
    · rfl
    all_goals simp
  | os, .subLink _ _ subselect => ownSets_eq_map side os subselect
  | os, .query _ rtable _ quals => ownSets_eq_map side (rtable.map relidOf :: os) quals
  | _, .null | _, .var _ | _, .const _ | _, .param _ | _, .opExpr _ _ | _, .nullTest _ _
  | _, .rangeTblEntry _ _ _ | _, .targetEntry _ _ | _, .list _ => rfl

theorem ownSetsList_eq_map (side : Bool) : ∀ (os : Scopes) (nodes : List (Node α)),
    ownSetsList side os nodes = (andOrsList os nodes).map fun n => notNull side n.1 n.2
  | _, [] => rfl
  | os, node :: nodes => by
    rw [ownSetsList, andOrsList, ownSets_eq_map side os node, ownSetsList_eq_map side os nodes,
      List.map_append]

end

theorem andOrsList_append (os : Scopes) (as bs : List (Node α)) :
    andOrsList os (as ++ bs) = andOrsList os as ++ andOrsList os bs := by
  induction as with
  | nil => rfl
  | cons a as ih => rw [List.cons_append, andOrsList, ih, andOrsList, List.append_assoc]

theorem andOrsList_operands {os : Scopes} {args : List (Node α)}
    (hargs : ∀ a ∈ args, Operand cat os a) : andOrsList os args = [] := by
  induction args with
  | nil => rfl
  | cons a args ih =>
    rw [andOrsList, ih fun b hb => hargs b (List.mem_cons_of_mem _ hb)]
    cases hargs a List.mem_cons_self <;> rfl

/-- The AND/OR nodes of a tree, from those of its children. -/
theorem andOrs_eq {os : Scopes} {node : Node α} (h : Visited cat os node) :
    andOrs os node = andOrsList (innerScopes os node) node.children ++
      if node.isAndOr then [(os, node)] else [] := by
  cases h with
  | operand ha => cases ha <;> rfl
  | query _ =>
    simp [selectFrom, andOrs, innerScopes, Node.children, andOrsList, Node.isAndOr]
  | cond ha =>
    cases ha with
    | null => rfl
    | leaf ha =>
      cases ha with
      | comparison hargs =>
        simp [andOrs, innerScopes, Node.children, Node.isAndOr, andOrsList_operands hargs]
      | nullTest harg => cases harg <;> rfl
    | and _ _ | or _ _ | not _ _ => simp [andOrs, innerScopes, Node.children, Node.isAndOr]
    | exist _ =>
      simp [existsFrom, andOrs, innerScopes, Node.children, andOrsList, Node.isAndOr]

theorem length_andOrsList {os : Scopes} {nodes : List (Node α)}
    (hnodes : ∀ a ∈ nodes, (andOrs os a).length = boolCount a) :
    (andOrsList os nodes).length = boolCountList nodes := by
  induction nodes with
  | nil => rfl
  | cons a nodes ih =>
    rw [andOrsList, List.length_append, hnodes a List.mem_cons_self,
      ih fun b hb => hnodes b (List.mem_cons_of_mem _ hb), boolCountList]

theorem length_andOrs {os : Scopes} {node : Node α} (h : Cond (Atom cat) True os node) :
    (andOrs os node).length = boolCount node := by
  induction h with
  | leaf ha => cases ha <;> rfl
  | null => rfl
  | and _ _ ih | or _ _ ih => simp [andOrs, boolCount, length_andOrsList ih]
  | not _ _ ih => simp [andOrs, andOrsList, boolCount, boolCountList, ih]
  | exist _ ih =>
    simp only [existsFrom, selectFrom, andOrs, boolCount, map_relidOf_baseTable]
    exact ih

theorem length_andOrs_visited {os : Scopes} {node : Node α} (h : Visited cat os node) :
    (andOrs os node).length = boolCount node := by
  cases h with
  | cond h => exact length_andOrs h
  | operand h => cases h <;> rfl
  | query h =>
    simp only [selectFrom, andOrs, boolCount, map_relidOf_baseTable]
    exact length_andOrs h

theorem length_ownSets {os : Scopes} {node : Node α} (h : Cond (Atom cat) True os node)
    (side : Bool) : (ownSets side os node).length = boolCount node := by
  rw [ownSets_eq_map, List.length_map, length_andOrs h]

/-- An AND/OR node comes after those to its left and inside it. -/
theorem andOrs_at {os : Scopes} {node target : Node α} {path : List Nat}
    (h : Visited cat os node) (hpath : nodeAt path node = some target)
    (hb : target.isAndOr = true) :
    (andOrs os node)[before path node + boolCount target - 1]? =
      some (scopesAt path node os, target) := by
  have hlen : ∀ {os : Scopes} {node : Node α} (nodes : List (Node α)), Visited cat os node →
      (∀ a ∈ nodes, a ∈ node.children) →
      (andOrsList (innerScopes os node) nodes).length = boolCountList nodes :=
    fun nodes h hsub => length_andOrsList fun a ha => length_andOrs_visited (h.child (hsub a ha))
  have hpos := Node.boolCount_pos hb
  induction path generalizing os node with
  | nil =>
    obtain rfl : node = target := Option.some.inj hpath
    have hcount := h.counts.1
    rw [if_pos hb] at hcount
    have hidx : before [] node + boolCount node - 1 = boolCountList node.children := by
      simp only [before]
      omega
    rw [hidx, andOrs_eq h, if_pos hb, ← hlen node.children h fun _ => id,
      List.getElem?_concat_length]
    rfl
  | cons i path ih =>
    obtain ⟨child, hchild, hrest⟩ := Option.bind_eq_some_iff.mp hpath
    obtain ⟨hlt, hget⟩ := List.getElem?_eq_some_iff.mp hchild
    have hsplit : node.children = node.children.take i ++ child :: node.children.drop (i + 1) := by
      rw [← hget, List.getElem_cons_drop, List.take_append_drop]
    have hin := ih (h.child (List.mem_of_getElem? hchild)) hrest
    have hbound := (List.getElem?_eq_some_iff.mp hin).1
    have htake := hlen (node.children.take i) h fun _ => List.mem_of_mem_take
    have hidx : before (i :: path) node + boolCount target - 1 =
        boolCountList (node.children.take i) + (before path child + boolCount target - 1) := by
      rw [before, hchild, Option.elim_some]
      omega
    rw [andOrs_eq h, hsplit, andOrsList_append, andOrsList, hidx, ← htake, List.append_assoc,
      List.getElem?_append_right (by omega), Nat.add_sub_cancel_left, List.append_assoc,
      List.getElem?_append_left hbound, hin, scopesAt, hchild, Option.elim_some]

theorem ownSets_at {os : Scopes} {node target : Node α} {path : List Nat}
    (h : Visited cat os node) (hpath : nodeAt path node = some target)
    (hb : target.isAndOr = true) (side : Bool) :
    (ownSets side os node)[before path node + boolCount target - 1]? =
      some (notNull side (scopesAt path node os) target) := by
  rw [ownSets_eq_map, List.getElem?_map, andOrs_at h hpath hb, Option.map_some]

/-- Some AND/OR node of the tree has the entry `k`. -/
def Reaches (node : Node α) (k : Nat) : Prop :=
  ∃ path target, nodeAt path node = some target ∧ target.isAndOr = true ∧
    before path node + boolCount target - 1 = k

theorem Reaches.parent (node : Node α) {child : Node α} {i k : Nat} (h : Reaches child k)
    (hchild : node.children[i]? = some child) : Reaches node
      (boolCountList (node.children.take i) + k) := by
  obtain ⟨path, target, hpath, hb, hk⟩ := h
  have hpos := Node.boolCount_pos hb
  refine ⟨i :: path, target, by rw [nodeAt, hchild, Option.bind_some, hpath], hb, ?_⟩
  rw [before, hchild, Option.elim_some]
  omega

/-- The argument that an entry falls into. -/
theorem exists_argument {nodes : List (Node α)} {k : Nat} (hk : k < boolCountList nodes) :
    ∃ i a k', nodes[i]? = some a ∧ k' < boolCount a ∧ boolCountList (nodes.take i) + k' = k := by
  induction nodes generalizing k with
  | nil => simp [boolCountList] at hk
  | cons a nodes ih =>
    rw [boolCountList] at hk
    by_cases hlt : k < boolCount a
    · exact ⟨0, a, k, rfl, hlt, by simp [boolCountList]⟩
    · obtain ⟨i, b, k', hb, hk', hsum⟩ := ih (k := k - boolCount a) (by omega)
      refine ⟨i + 1, b, k', hb, hk', ?_⟩
      rw [List.take_succ_cons, boolCountList]
      omega

theorem reaches_boolExpr {boolop : BoolExprType} (hop : boolop ≠ .notExpr) {args : List (Node α)}
    (hargs : ∀ a ∈ args, ∀ k < boolCount a, Reaches a k) {k : Nat}
    (hk : k < boolCount (.boolExpr boolop args)) : Reaches (.boolExpr boolop args) k := by
  have hnode : boolCount (.boolExpr boolop args) = boolCountList args + 1 ∧
      (.boolExpr boolop args : Node α).isAndOr = true := by
    cases boolop with
    | notExpr => exact absurd rfl hop
    | andExpr | orExpr => exact ⟨rfl, rfl⟩
  by_cases hlast : k = boolCountList args
  · refine ⟨[], _, rfl, hnode.2, ?_⟩
    rw [before, hnode.1]
    omega
  · have hlt : k < boolCountList args := by omega
    obtain ⟨i, a, k', ha, hk', rfl⟩ := exists_argument hlt
    exact (hargs a (List.mem_of_getElem? ha) k' hk').parent (.boolExpr boolop args) ha

/-- Every entry is that of an AND/OR node. -/
theorem reaches {os : Scopes} {node : Node α} (h : Cond (Atom cat) True os node) {k : Nat}
    (hk : k < boolCount node) : Reaches node k := by
  induction h generalizing k with
  | leaf ha => cases ha <;> simp [boolCount] at hk
  | null => simp [boolCount] at hk
  | and _ _ ih => exact reaches_boolExpr (by simp) (fun a ha k => ih a ha) hk
  | or _ _ ih => exact reaches_boolExpr (by simp) (fun a ha k => ih a ha) hk
  | @not _ a _ _ ih =>
    have hin := ih (k := k) (by simpa [boolCount, boolCountList] using hk)
    simpa [Node.children, boolCountList] using hin.parent (.boolExpr .notExpr [a]) (i := 0) rfl
  | @exist os targetList relids quals _ ih =>
    have hin := ih (k := k) (by simpa [existsFrom, selectFrom, boolCount] using hk)
    have hquery : Reaches (selectFrom targetList relids quals) k := by
      simpa [selectFrom, Node.children, boolCountList] using
        hin.parent (selectFrom targetList relids quals) (i := 0) rfl
    simpa [existsFrom, Node.children, boolCountList, boolCount] using
      hquery.parent (existsFrom targetList relids quals) (i := 1) rfl

/-! ### Where later arguments add nothing -/

mutual

/-- Each set of an AND/OR node that, below NOTs and EXISTS, is an argument of another one is empty
or contains what the later arguments of that one add; `laterTrue` and `laterFalse` are what those of
the tree itself add. -/
def absorbs : Scopes → Node α → Finset Column → Finset Column → Bool
  | os, .boolExpr .notExpr args, laterTrue, laterFalse => absorbsList os args laterFalse laterTrue
  | os, .boolExpr boolop args, laterTrue, laterFalse =>
    (notNull true os (.boolExpr boolop args) = ∅ ∨
      laterTrue ⊆ notNull true os (.boolExpr boolop args)) &&
    (notNull false os (.boolExpr boolop args) = ∅ ∨
      laterFalse ⊆ notNull false os (.boolExpr boolop args)) &&
    absorbsList os args ∅ ∅
  | os, .subLink _ _ subselect, laterTrue, laterFalse => absorbs os subselect laterTrue laterFalse
  | os, .query _ rtable _ quals, laterTrue, laterFalse =>
    absorbs (rtable.map relidOf :: os) quals laterTrue laterFalse
  | _, _, _, _ => true

def absorbsList : Scopes → List (Node α) → Finset Column → Finset Column → Bool
  | _, [], _, _ => true
  | os, node :: nodes, laterTrue, laterFalse =>
    absorbs os node (merge true (notNullList true os nodes) ∪ laterTrue)
        (merge true (notNullList false os nodes) ∪ laterFalse) &&
      absorbsList os nodes laterTrue laterFalse

end

theorem extend_eq_self {set later : Finset Column} :
    extend set later = set ↔ set = ∅ ∨ later ⊆ set := by
  rw [extend]
  split
  · next h => simp [h]
  · next h => simp [h, Finset.union_eq_left]

theorem entriesList_eq_iff {os : Scopes} {nodes : List (Node α)}
    (hlen : ∀ a ∈ nodes, ∀ side x y, (entries side os a x y).length = (ownSets side os a).length)
    (hnodes : ∀ a ∈ nodes, ∀ x y, (∀ side, entries side os a x y = ownSets side os a) ↔
      absorbs os a x y = true) (x y : Finset Column) :
    (∀ side, entriesList side os nodes x y = ownSetsList side os nodes) ↔
      absorbsList os nodes x y = true := by
  induction nodes generalizing x y with
  | nil => simp [entriesList, ownSetsList, absorbsList]
  | cons a nodes ih =>
    rw [absorbsList, Bool.and_eq_true, ← hnodes a List.mem_cons_self, ← ih
      (fun b hb => hlen b (List.mem_cons_of_mem _ hb))
      (fun b hb => hnodes b (List.mem_cons_of_mem _ hb)), ← forall_and]
    refine forall_congr' fun side => ?_
    rw [entriesList, ownSetsList]
    constructor
    · exact fun heq => List.append_inj heq (hlen a List.mem_cons_self side _ _)
    · rintro ⟨h1, h2⟩
      rw [h1, h2]

theorem length_entriesList {side : Bool} {os : Scopes} {nodes : List (Node α)}
    (hnodes : ∀ a ∈ nodes, ∀ x y, (entries side os a x y).length = boolCount a)
    (x y : Finset Column) : (entriesList side os nodes x y).length = boolCountList nodes := by
  induction nodes with
  | nil => rfl
  | cons a nodes ih =>
    rw [entriesList, List.length_append, hnodes a List.mem_cons_self,
      ih fun b hb => hnodes b (List.mem_cons_of_mem _ hb), boolCountList]

theorem length_entries {os : Scopes} {node : Node α} (h : Cond (Atom cat) True os node)
    (side : Bool)
    (x y : Finset Column) : (entries side os node x y).length = boolCount node := by
  induction h generalizing x y with
  | leaf ha => cases ha <;> rfl
  | null => rfl
  | and _ _ ih | or _ _ ih => simp [entries, boolCount, length_entriesList ih]
  | not _ _ ih => simp [entries, entriesList, boolCount, boolCountList, ih]
  | exist _ ih =>
    simp only [existsFrom, selectFrom, entries, boolCount, map_relidOf_baseTable]
    exact ih x y

theorem entries_boolExpr_eq_iff {os : Scopes} {args : List (Node α)} {boolop : BoolExprType}
    (hop : boolop ≠ .notExpr)
    (hlen : ∀ a ∈ args, ∀ side x y, (entries side os a x y).length = (ownSets side os a).length)
    (hargs : ∀ a ∈ args, ∀ x y, (∀ side, entries side os a x y = ownSets side os a) ↔
      absorbs os a x y = true) (x y : Finset Column) :
    (∀ side, entries side os (.boolExpr boolop args) x y =
        ownSets side os (.boolExpr boolop args)) ↔
      absorbs os (.boolExpr boolop args) x y = true := by
  have hlist := entriesList_eq_iff hlen hargs ∅ ∅
  have hnode : ∀ side, entries side os (.boolExpr boolop args) x y =
        ownSets side os (.boolExpr boolop args) ↔
      entriesList side os args ∅ ∅ = ownSetsList side os args ∧
        extend (notNull side os (.boolExpr boolop args)) (if side then x else y) =
          notNull side os (.boolExpr boolop args) := by
    intro side
    cases boolop with
    | notExpr => exact absurd rfl hop
    | andExpr | orExpr => simp only [entries, ownSets, List.append_singleton_inj]
  have habsorbs : absorbs os (.boolExpr boolop args) x y = true ↔
      ((notNull true os (.boolExpr boolop args) = ∅ ∨ x ⊆ notNull true os (.boolExpr boolop args)) ∧
        (notNull false os (.boolExpr boolop args) = ∅ ∨
          y ⊆ notNull false os (.boolExpr boolop args))) ∧ absorbsList os args ∅ ∅ = true := by
    cases boolop with
    | notExpr => exact absurd rfl hop
    | andExpr | orExpr => simp only [absorbs, Bool.and_eq_true, decide_eq_true_eq]
  simp only [hnode, extend_eq_self, habsorbs, ← hlist, Bool.forall_bool, Bool.false_eq_true,
    if_false, if_true]
  constructor
  · rintro ⟨⟨hlistF, hF⟩, hlistT, hT⟩
    exact ⟨⟨hT, hF⟩, hlistF, hlistT⟩
  · rintro ⟨⟨hT, hF⟩, hlistF, hlistT⟩
    exact ⟨⟨hlistF, hF⟩, hlistT, hT⟩

/-- The entries are the sets of their nodes exactly if later arguments add nothing to them. -/
theorem entries_eq_iff_absorbs {os : Scopes} {node : Node α} (h : Cond (Atom cat) True os node)
    (x y : Finset Column) :
    (∀ side, entries side os node x y = ownSets side os node) ↔ absorbs os node x y = true := by
  have hlen : ∀ {os : Scopes} {a : Node α}, Cond (Atom cat) True os a → ∀ side x y,
      (entries side os a x y).length = (ownSets side os a).length :=
    fun h side x y => (length_entries h side x y).trans (length_ownSets h side).symm
  induction h generalizing x y with
  | leaf ha => cases ha <;> simp [entries, ownSets, absorbs]
  | null => simp [entries, ownSets, absorbs]
  | and _ hargs ih =>
    exact entries_boolExpr_eq_iff (by simp) (fun a ha => hlen (hargs a ha)) ih x y
  | or _ hargs ih =>
    exact entries_boolExpr_eq_iff (by simp) (fun a ha => hlen (hargs a ha)) ih x y
  | @not os a _ ha ih =>
    have hlist : (∀ side, entriesList side os [a] y x = ownSetsList side os [a]) ↔
        absorbsList os [a] y x = true :=
      entriesList_eq_iff (by simpa using hlen ha) (by simpa using ih) y x
    simpa only [entries, ownSets, absorbs] using hlist
  | exist _ ih =>
    simp only [existsFrom, selectFrom, entries, ownSets, absorbs, map_relidOf_baseTable]
    exact ih x y

/-! ### Where later arguments add nothing in scope -/

mutual

/-- Each true-set of an AND/OR node that, below NOTs and EXISTS, is an argument of another one is
empty or contains those of the columns added by the later arguments of that one that are in scope at
the node. -/
def contained : Scopes → Node α → Finset Column → Finset Column → Bool
  | os, .boolExpr .notExpr args, laterTrue, laterFalse => containedList os args laterFalse laterTrue
  | os, .boolExpr boolop args, laterTrue, _ =>
    (notNull true os (.boolExpr boolop args) = ∅ ∨
      ∀ col ∈ laterTrue, col.1 ∈ os.flatten → col ∈ notNull true os (.boolExpr boolop args)) &&
    containedList os args ∅ ∅
  | os, .subLink _ _ subselect, laterTrue, laterFalse => contained os subselect laterTrue laterFalse
  | os, .query _ rtable _ quals, laterTrue, laterFalse =>
    contained (rtable.map relidOf :: os) quals laterTrue laterFalse
  | _, _, _, _ => true

def containedList : Scopes → List (Node α) → Finset Column → Finset Column → Bool
  | _, [], _, _ => true
  | os, node :: nodes, laterTrue, laterFalse =>
    contained os node (merge true (notNullList true os nodes) ∪ laterTrue)
        (merge true (notNullList false os nodes) ∪ laterFalse) &&
      containedList os nodes laterTrue laterFalse

end

/-- Of the columns of the entry, those in scope are in the set of the node. -/
def Within (K : Finset Column) (n : Scopes × Node α) : Prop :=
  ∀ col ∈ K, col.1 ∈ n.1.flatten → col ∈ notNull true n.1 n.2

theorem within_extend {os : Scopes} {node : Node α} {later : Finset Column} :
    Within (extend (notNull true os node) later) (os, node) ↔
      notNull true os node = ∅ ∨
        ∀ col ∈ later, col.1 ∈ os.flatten → col ∈ notNull true os node := by
  rw [extend]
  split
  · next h => simp [Within, h]
  · next h =>
    simp only [Within, h, false_or, Finset.mem_union]
    constructor
    · exact fun hall col hcol => hall col (.inr hcol)
    · rintro hall col (hcol | hcol) hin
      · exact hcol
      · exact hall col hcol hin

theorem entriesList_within_iff {os : Scopes} {nodes : List (Node α)}
    (hcond : ∀ a ∈ nodes, Cond (Atom cat) True os a)
    (hnodes : ∀ a ∈ nodes, ∀ x y, List.Forall₂ Within (entries true os a x y) (andOrs os a) ↔
      contained os a x y = true) (x y : Finset Column) :
    List.Forall₂ Within (entriesList true os nodes x y) (andOrsList os nodes) ↔
      containedList os nodes x y = true := by
  induction nodes generalizing x y with
  | nil => simp [entriesList, andOrsList, containedList]
  | cons a nodes ih =>
    have ha := hcond a List.mem_cons_self
    rw [entriesList, andOrsList, containedList, Bool.and_eq_true,
      forall₂_append_iff ((length_entries ha true _ _).trans (length_andOrs ha).symm),
      hnodes a List.mem_cons_self, ih (fun b hb => hcond b (List.mem_cons_of_mem _ hb))
        fun b hb => hnodes b (List.mem_cons_of_mem _ hb)]

theorem entries_boolExpr_within_iff {os : Scopes} {args : List (Node α)} {boolop : BoolExprType}
    (hop : boolop ≠ .notExpr) (hcond : ∀ a ∈ args, Cond (Atom cat) True os a)
    (hargs : ∀ a ∈ args, ∀ x y, List.Forall₂ Within (entries true os a x y) (andOrs os a) ↔
      contained os a x y = true) (x y : Finset Column) :
    List.Forall₂ Within (entries true os (.boolExpr boolop args) x y)
        (andOrs os (.boolExpr boolop args)) ↔
      contained os (.boolExpr boolop args) x y = true := by
  have hlen : (entriesList true os args ∅ ∅).length = (andOrsList os args).length :=
    (length_entriesList (fun a ha => length_entries (hcond a ha) true) ∅ ∅).trans
      (length_andOrsList fun a ha => length_andOrs (hcond a ha)).symm
  have hnode : List.Forall₂ Within
      [extend (notNull true os (.boolExpr boolop args)) x] [(os, .boolExpr boolop args)] ↔
      notNull true os (.boolExpr boolop args) = ∅ ∨
        ∀ col ∈ x, col.1 ∈ os.flatten → col ∈ notNull true os (.boolExpr boolop args) := by
    rw [List.forall₂_cons, within_extend]
    simp
  cases boolop with
  | notExpr => exact absurd rfl hop
  | andExpr | orExpr =>
    simp only [entries, andOrs, contained, if_true, Bool.and_eq_true, decide_eq_true_eq]
    rw [forall₂_append_iff hlen, entriesList_within_iff hcond hargs, hnode]
    exact and_comm

/-- The columns in scope of the entries are those of the sets exactly if later arguments add none of
them. -/
theorem entries_within_iff {os : Scopes} {node : Node α} (h : Cond (Atom cat) True os node)
    (x y : Finset Column) :
    List.Forall₂ Within (entries true os node x y) (andOrs os node) ↔
      contained os node x y = true := by
  induction h generalizing x y with
  | leaf ha => cases ha <;> simp [entries, andOrs, contained]
  | null => simp [entries, andOrs, contained]
  | and _ hargs ih => exact entries_boolExpr_within_iff (by simp) hargs ih x y
  | or _ hargs ih => exact entries_boolExpr_within_iff (by simp) hargs ih x y
  | @not os a _ ha ih =>
    have hlist : List.Forall₂ Within (entriesList true os [a] y x) (andOrsList os [a]) ↔
        containedList os [a] y x = true :=
      entriesList_within_iff (by simpa using ha) (by simpa using ih) y x
    simpa only [entries, andOrs, contained] using hlist
  | exist _ ih =>
    simp only [existsFrom, selectFrom, entries, andOrs, contained, map_relidOf_baseTable]
    exact ih x y

/-! ### After the walk -/

/-- The columns in the cells of the entry that the walker appended for the AND/OR node at a path,
read after the whole walk.  The entry is the last one of its list when the walker leaves the
node. -/
def recorded (cat : Catalog) (side : Bool) (q : Node α) (path : List Nat) :
    Option (Finset Column) := do
  let w ← myWalker cat q makeContextWalkerSetConstraint
  let (target, c) ← pass.walkerAt cat path q makeContextWalkerSetConstraint
  let c' ← myWalker cat target c
  let entry ← if side then w.listListTrue[c'.listListTrue.length - 1]?
    else w.listListFalse[c'.listListFalse.length - 1]?
  let vars ← w.heap.foreach entry
  some (columns vars)

/-- The entries of the whole query, read after the walk. -/
theorem walked_entries (targetList : List (Node α)) {relids : List Oid} {quals : Node α}
    (h : Cond (Atom cat) True [relids] quals) (hcov : covered [relids] none quals = true) :
    ∃ w, myWalker cat (selectFrom targetList relids quals) makeContextWalkerSetConstraint = some w ∧
      List.Forall₂ (fun l set => ∃ vars, w.heap.foreach l = some vars ∧ columns vars = set)
        w.listListTrue (entries true [relids] quals ∅ ∅) ∧
      List.Forall₂ (fun l set => ∃ vars, w.heap.foreach l = some vars ∧ columns vars = set)
        w.listListFalse (entries false [relids] quals ∅ ∅) := by
  have hcov' : covered [] none (selectFrom targetList relids quals) = true := by
    rw [selectFrom, covered, map_relidOf_baseTable]
    exact hcov
  have hrecords : Records cat [] (selectFrom targetList relids quals) :=
    records_selectFrom (records_cond h)
  obtain ⟨w, bsT, bsF, hrun, r⟩ := hrecords _ _ _ _ (collected_make cat) hcov'
  have hlater : Later 0 w.heap bsT bsF [] [] w.heap :=
    ⟨fun _ _ _ _ _ => rfl, fun _ _ => rfl, fun _ _ => rfl,
      fun hne => by simpa using r.toBeTrue.path hne, fun hne => by simpa using r.toBeFalse.path hne⟩
  have hentries : ∀ side, entries side [] (selectFrom targetList relids quals) ∅ ∅ =
      entries side [relids] quals ∅ ∅ := by
    intro side
    rw [selectFrom, entries, map_relidOf_baseTable]
  obtain ⟨newT, hnewT, futT⟩ := r.entriesTrue
  obtain ⟨newF, hnewF, futF⟩ := r.entriesFalse
  refine ⟨w, hrun, ?_, ?_⟩
  · rw [hnewT, ← hentries]
    exact futT w.heap [] [] hlater
  · rw [hnewF, ← hentries]
    exact futF w.heap [] [] hlater

/-- Where the walker comes to the node at a path, and which entry is the last one when it leaves the
node. -/
theorem walkerAt_entry (P : Pass α) (targetList : List (Node α)) {relids : List Oid}
    {quals : Node α} (h : Cond (Atom cat) True [relids] quals) {path : List Nat} {target : Node α}
    (hpath : nodeAt path (selectFrom targetList relids quals) = some target) :
    ∃ c c', P.walkerAt cat path (selectFrom targetList relids quals)
        makeContextWalkerSetConstraint = some (target, c) ∧ P.myWalker cat target c = some c' ∧
      c'.listListTrue.length - 1 =
        before path (selectFrom targetList relids quals) + boolCount target - 1 ∧
      c'.listListFalse.length - 1 =
        before path (selectFrom targetList relids quals) + boolCount target - 1 := by
  have hin : WalkerIn cat [] (selectFrom targetList relids quals) makeContextWalkerSetConstraint :=
    ⟨.query h, trivial, 0, 0, walkInv_make⟩
  obtain ⟨os, c, hc, hin', hlenT, hlenF⟩ := hin.run (P := P) hpath
  obtain ⟨N, M, inv⟩ := hin'.inv
  obtain ⟨c', hc', walked, _⟩ := P.walks_visited hin'.visited N M c hin'.resolves inv
  obtain ⟨newT, hnewT, hnewlenT⟩ := walked.entriesTrue
  obtain ⟨newF, hnewF, hnewlenF⟩ := walked.entriesFalse
  refine ⟨c, c', hc, hc', ?_, ?_⟩
  · rw [hnewT, List.length_append, hnewlenT, hlenT]
    simp [makeContextWalkerSetConstraint]
  · rw [hnewF, List.length_append, hnewlenF, hlenF]
    simp [makeContextWalkerSetConstraint]

/-- Reading an entry, where each one holds its set. -/
theorem foreach_entry {h : Heap TrueVar} {ls : List ListPtr} {sets : List (Finset Column)}
    (hls : List.Forall₂ (fun l set => ∃ vars, h.foreach l = some vars ∧ columns vars = set) ls
      sets) (k : Nat) :
    (do
      let entry ← ls[k]?
      let vars ← h.foreach entry
      some (columns vars)) = sets[k]? := by
  induction hls generalizing k with
  | nil => simp
  | cons hl _ ih =>
    obtain ⟨vars, hvars, hcols⟩ := hl
    cases k with
    | zero => simp [hvars, hcols]
    | succ k => simpa using ih k

/-- What is recorded for the AND/OR node at a path is its entry. -/
theorem recorded_eq (targetList : List (Node α)) {relids : List Oid} {quals : Node α}
    (h : Cond (Atom cat) True [relids] quals) (hcov : covered [relids] none quals = true)
    {path : List Nat} {target : Node α}
    (hpath : nodeAt path (selectFrom targetList relids quals) = some target) (side : Bool) :
    recorded cat side (selectFrom targetList relids quals) path =
      (entries side [relids] quals ∅ ∅)[before path (selectFrom targetList relids quals) +
        boolCount target - 1]? := by
  obtain ⟨w, hw, hT, hF⟩ := walked_entries targetList h hcov
  obtain ⟨c, c', hc, hc', hidxT, hidxF⟩ := walkerAt_entry pass targetList h hpath
  have hstart : recorded cat side (selectFrom targetList relids quals) path = (do
      let entry ← if side then w.listListTrue[c'.listListTrue.length - 1]?
        else w.listListFalse[c'.listListFalse.length - 1]?
      let vars ← w.heap.foreach entry
      some (columns vars)) := by
    simp only [recorded, hw, hc, Option.bind_eq_bind, Option.bind_some]
    rw [show myWalker cat target c = some c' from hc', Option.bind_some]
  rw [hstart]
  cases side with
  | true => simpa only [if_true, hidxT] using foreach_entry hT _
  | false => simpa only [Bool.false_eq_true, if_false, hidxF] using foreach_entry hF _

/-- When every null test after a comparison is on a column of the last one, the lists recorded for
the AND/OR nodes hold the nodes' sets after the walk exactly if no node is an argument of another to
whose set later arguments add a column that the node's own non-empty set does not have. -/
theorem recorded_iff_absorbs (cat : Catalog) (targetList : List (Node α)) (relids : List Oid)
    (quals : Node α) (h : Cond (Atom cat) True [relids] quals)
    (hcov : covered [relids] none quals = true) :
    (∀ path target, nodeAt path (selectFrom targetList relids quals) = some target →
        target.isAndOr = true → ∀ side,
          recorded cat side (selectFrom targetList relids quals) path =
            some (notNull side (scopesAt path (selectFrom targetList relids quals) []) target)) ↔
      absorbs [relids] quals ∅ ∅ = true := by
  have hvis : Visited cat [] (selectFrom targetList relids quals) := .query h
  have hown : ∀ side, ownSets side [] (selectFrom targetList relids quals) =
      ownSets side [relids] quals := by
    intro side
    rw [selectFrom, ownSets, map_relidOf_baseTable]
  rw [← entries_eq_iff_absorbs h]
  constructor
  · intro hrec side
    refine List.ext_getElem? fun k => ?_
    by_cases hk : k < boolCount quals
    · have hin := (reaches h hk).parent (selectFrom targetList relids quals) (i := 0) rfl
      rw [List.take_zero, boolCountList, Nat.zero_add] at hin
      obtain ⟨path, target, hpath, hb, rfl⟩ := hin
      rw [← recorded_eq targetList h hcov hpath side, hrec path target hpath hb side,
        ← ownSets_at hvis hpath hb side, hown]
    · rw [List.getElem?_eq_none (by rw [length_entries h]; omega),
        List.getElem?_eq_none (by rw [length_ownSets h]; omega)]
  · intro hentries path target hpath hb side
    rw [recorded_eq targetList h hcov hpath side, hentries side, ← hown,
      ownSets_at hvis hpath hb side]

/-- In `(r.a = 1 OR r.a = 2) AND r.a = 3` the later argument adds the column that the OR's set
has. -/
theorem recorded_iff_absorbs_sameColumn :
    covered [[1]] none (oneOr 1) = true ∧
    ∀ path target, nodeAt path (selectFrom [] [1] (oneOr 1)) = some target →
      target.isAndOr = true →
      ∀ side, recorded (Catalog.nullable 2) side (selectFrom [] [1] (oneOr 1)) path =
        some (notNull side (scopesAt path (selectFrom [] [1] (oneOr 1)) []) target) :=
  ⟨by decide, (recorded_iff_absorbs (Catalog.nullable 2) [] [1] _
    (oneOr_cond (by decide) (by decide)) (by decide)).mpr (by decide)⟩

/-- `r.a = 1 AND r.b IS NULL`. -/
def nullTestLast : Node Int :=
  .boolExpr .andExpr [compared 96 ⟨1, 1, 0⟩ 1, .nullTest .isNull (.var ⟨1, 2, 0⟩)]

/-- In `(r.a = 1 OR r.a = 2) AND r.b = 3` the list of the OR goes on with the column of the later
comparison; in `r.a = 1 AND r.b IS NULL` the null test adds its column to the comparison before
it. -/
theorem recorded_fails :
    (nodeAt [0, 0] (selectFrom [] [1] (oneOr 2)) = some (oneOf 1 1 2) ∧
      recorded (Catalog.nullable 2) true (selectFrom [] [1] (oneOr 2)) [0, 0] =
        some {(1, 1), (1, 2)} ∧
      notNull true (scopesAt [0, 0] (selectFrom [] [1] (oneOr 2)) []) (oneOf 1 1 2) = {(1, 1)}) ∧
    (nodeAt [0] (selectFrom [] [1] nullTestLast) = some nullTestLast ∧
      recorded (Catalog.nullable 2) true (selectFrom [] [1] nullTestLast) [0] =
        some {(1, 1), (1, 2)} ∧
      notNull true (scopesAt [0] (selectFrom [] [1] nullTestLast) []) nullTestLast = {(1, 1)}) := by
  refine ⟨⟨rfl, ?_, ?_⟩, rfl, ?_, ?_⟩
  all_goals decide +kernel

end Infed.Codd
