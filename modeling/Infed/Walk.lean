import Infed.CellOrder
import Infed.Fragment

/-! `my_walker` returns on every condition over comparisons and null tests.  It records one pair of
sets for each AND/OR node and one scope for each query, in the order of the traversal, and the heap
that it leaves is ordered, so that each recorded set can be read. -/

namespace Infed

open CellList Heap

variable {α : Type} {cat : Catalog}

/-! ### The columns that the walker meets -/

def operandVar (scope : Scope) : Node α → Option TrueVar
  | .var v => getTrueVar scope v
  | _ => none

mutual

/-- The true variables of the columns in the atoms of a condition whose first FROM entry has
number `rte`. -/
def seenVars (cat : Catalog) : Node α → Scope → Nat → List TrueVar
  | .var v, scope, _ => (getTrueVar scope v).toList
  | .opExpr _ args, scope, _ => args.filterMap (operandVar scope)
  | .nullTest _ arg, scope, _ => (operandVar scope arg).toList
  | .boolExpr _ args, scope, rte => seenVarsList cat args scope rte
  | .subLink _ _ subselect, scope, rte => seenVars cat subselect scope rte
  | .query _ rtable _ quals, scope, rte =>
    seenVars cat quals (scope.enter cat rte (rtable.map relidOf)) (rte + rtable.length)
  | _, _, _ => []

def seenVarsList (cat : Catalog) : List (Node α) → Scope → Nat → List TrueVar
  | [], _, _ => []
  | node :: nodes, scope, rte =>
    seenVars cat node scope rte ++ seenVarsList cat nodes scope (rte + rteCount node)

end

/-! ### Collecting columns -/

/-- From the heap `h` and list `l` to `h'` and `l'` by appending columns of `seen` to the list. -/
structure Collects (seen : List TrueVar) (h : Heap TrueVar) (l : ListPtr) (h' : Heap TrueVar)
    (l' : ListPtr) : Prop where
  ordered : h'.Ordered
  grows : Grows (fun p => l = some p) h h'
  ptr : ∀ p, l' = some p → l = some p ∨ h.lists.length ≤ p
  fromPtr : ∀ N M, N ≤ h.cells.length → M ≤ h.lists.length → h.From N M l → h'.From N M l'
  data : ∀ t ∈ h'.data, t ∈ h.data ∨ t ∈ seen

namespace Collects

variable {seen seen' : List TrueVar} {h h1 h2 : Heap TrueVar} {l l1 l2 : ListPtr}

theorem refl (hO : h.Ordered) (seen : List TrueVar) (l : ListPtr) : Collects seen h l h l :=
  ⟨hO, Grows.refl _ _, fun _ hp => .inl hp, fun _ _ _ _ hl => hl, fun _ ht => .inl ht⟩

theorem mono (c : Collects seen h l h1 l1) (hseen : ∀ t ∈ seen, t ∈ seen') :
    Collects seen' h l h1 l1 :=
  ⟨c.ordered, c.grows, c.ptr, c.fromPtr, fun t ht => (c.data t ht).imp_right (hseen t)⟩

theorem trans (c1 : Collects seen h l h1 l1) (c2 : Collects seen' h1 l1 h2 l2) :
    Collects (seen ++ seen') h l h2 l2 where
  ordered := c2.ordered
  grows := c1.grows.trans c2.grows fun p hp e => (c1.ptr p e).resolve_right (by omega)
  ptr p hp := by
    rcases c2.ptr p hp with h' | h'
    · exact c1.ptr p h'
    · exact .inr (c1.grows.lists_le.trans h')
  fromPtr N M hN hM hl := c2.fromPtr N M (hN.trans c1.grows.cells_le) (hM.trans c1.grows.lists_le)
    (c1.fromPtr N M hN hM hl)
  data t ht := by
    rcases c2.data t ht with h' | h'
    · exact (c1.data t h').imp_right fun h' => List.mem_append_left _ h'
    · exact .inr (List.mem_append_right _ h')

end Collects

theorem Pass.myWalker_operand (P : Pass α) {os : Scopes} {a : Node α}
    {c : ContextWalkerSetConstraint} (hs : c.currentTrueVar.Resolves cat os)
    (ha : Operand cat os a) (hO : c.heap.Ordered) (hin : c.heap.From 0 0 c.listOfNotNullInOp) :
    ∃ heap inOp, P.myWalker cat a c = some { c with heap, listOfNotNullInOp := inOp } ∧
      Collects (operandVar c.currentTrueVar a).toList c.heap c.listOfNotNullInOp heap inOp := by
  cases ha with
  | constant => exact ⟨_, _, by simp only [Pass.myWalker], Collects.refl hO _ _⟩
  | @column v hv =>
    by_cases hready : c.ready = true
    · obtain ⟨t, ht, _⟩ := getTrueVar_of_inScope hs hv
      obtain ⟨ts, hts⟩ := hO.foreach hin
      have hany : c.heap.any (fun s => s.varattno == t.varattno && s.vartype == t.vartype)
          c.listOfNotNullInOp = some (isInListTrueVar ts t) := any_of_foreach hts
      rw [Pass.myWalker, if_pos hready]
      cases hin' : isInListTrueVar ts t with
      | true =>
        rw [hin'] at hany
        exact ⟨_, _, by simp [ContextWalkerSetConstraint.addVar, ht, hany], Collects.refl hO _ _⟩
      | false =>
        rw [hin'] at hany
        obtain ⟨h', p, hrun, hO', g, hp, hfrom, hd⟩ := hO.lappend hin t
        refine ⟨h', some p, by simp [ContextWalkerSetConstraint.addVar, ht, hany, hrun], hO', g, ?_,
          hfrom, fun s hs => (hd s hs).imp_right fun e => by simp [operandVar, ht, e]⟩
        rintro q ⟨⟩
        exact hp.imp_right And.right
    · exact ⟨_, _, by rw [Pass.myWalker, if_neg hready], Collects.refl hO _ _⟩

theorem Pass.myWalkerList_operands (P : Pass α) {os : Scopes} {args : List (Node α)}
    (hargs : ∀ a ∈ args, Operand cat os a) {c : ContextWalkerSetConstraint}
    (hs : c.currentTrueVar.Resolves cat os) (hO : c.heap.Ordered)
    (hin : c.heap.From 0 0 c.listOfNotNullInOp) :
    ∃ heap inOp, P.myWalkerList cat args c = some { c with heap, listOfNotNullInOp := inOp } ∧
      Collects (args.filterMap (operandVar c.currentTrueVar)) c.heap c.listOfNotNullInOp heap
        inOp := by
  induction args generalizing c with
  | nil => exact ⟨_, _, rfl, Collects.refl hO _ _⟩
  | cons a args ih =>
    obtain ⟨heap1, inOp1, hrun1, col1⟩ := P.myWalker_operand hs (hargs a List.mem_cons_self) hO hin
    obtain ⟨heap2, inOp2, hrun2, col2⟩ :=
      ih (fun b hb => hargs b (List.mem_cons_of_mem _ hb))
        (c := { c with heap := heap1, listOfNotNullInOp := inOp1 }) hs col1.ordered
        (col1.fromPtr 0 0 (Nat.zero_le _) (Nat.zero_le _) hin)
    refine ⟨heap2, inOp2, by simp [Pass.myWalkerList, hrun1, hrun2], (col1.trans col2).mono ?_⟩
    intro t ht
    rw [List.filterMap_cons]
    cases hop : operandVar c.currentTrueVar a with
    | none => simpa [hop] using ht
    | some s => simpa [hop] using ht

/-! ### The invariant of the walk -/

/-- The walker's lists inside a node that was entered with `M` headers on the heap: what was
collected since is newer, from cell `N` on, than where the older lists end.  A null test can append
to an older list, the columns of the comparison before the node, but only before the first
comparison in the node. -/
structure WalkInv (N M : Nat) (c : ContextWalkerSetConstraint) : Prop where
  ordered : c.heap.Ordered
  cells_le : N ≤ c.heap.cells.length
  lists_le : M ≤ c.heap.lists.length
  old : c.heap.EndsBefore M N
  inOp : c.heap.From 0 0 c.listOfNotNullInOp
  toBeTrue : c.heap.From N M c.listOfNotNullToBeTrue
  toBeFalse : c.heap.From N M c.listOfNotNullToBeFalse
  distinct : ∀ p, c.listOfNotNullToBeTrue = some p → c.listOfNotNullToBeFalse ≠ some p
  stale : ∀ p < M, c.listOfNotNullInOp = some p →
    c.listOfNotNullToBeTrue = none ∧ c.listOfNotNullToBeFalse = none
  entriesTrue : ∀ l ∈ c.listListTrue, c.heap.From 0 0 l
  entriesFalse : ∀ l ∈ c.listListFalse, c.heap.From 0 0 l

/-- From the context `c` to `c'` over a part of the tree with the queries `scopes`, `rtes` FROM
entries, `bools` AND/OR nodes, and the columns `seen`. -/
structure Walked (cat : Catalog) (M : Nat) (scopes : List Scope) (rtes bools : Nat)
    (seen : List TrueVar) (c c' : ContextWalkerSetConstraint) : Prop where
  trueVars : c'.trueVars = c.trueVars ++ scopes
  currentTrueVar : c'.currentTrueVar = c.currentTrueVar
  rtes : c'.rtes = c.rtes + rtes
  entriesTrue : ∃ new, c'.listListTrue = c.listListTrue ++ new ∧ new.length = bools
  entriesFalse : ∃ new, c'.listListFalse = c.listListFalse ++ new ∧ new.length = bools
  schema : ∀ t ∈ c'.listOfNotNullAttSchem, t ∈ c.listOfNotNullAttSchem ∨
    cat.attnotnull t.vartype t.varattno = true
  grows : Grows (fun p => M ≤ p ∨ c.listOfNotNullInOp = some p) c.heap c'.heap
  inOp : ∀ p, c'.listOfNotNullInOp = some p →
    c.listOfNotNullInOp = some p ∨ c.heap.lists.length ≤ p
  data : ∀ t ∈ c'.heap.data, t ∈ c.heap.data ∨ t ∈ seen

/-- The columns of the comparison that is walked are on a list of their own, newer than those that
were collected before. -/
def Detached (N M : Nat) (c : ContextWalkerSetConstraint) : Prop :=
  ∃ N0 M0, N ≤ N0 ∧ N0 ≤ c.heap.cells.length ∧ M ≤ M0 ∧ M0 ≤ c.heap.lists.length ∧
    c.heap.Before N0 M0 c.listOfNotNullToBeTrue ∧ c.heap.Before N0 M0 c.listOfNotNullToBeFalse ∧
    c.heap.From N0 M0 c.listOfNotNullInOp

/-- Columns that are appended to the list leave it detached. -/
theorem Detached.ofCollects {N M : Nat} {c : ContextWalkerSetConstraint} (hd : Detached N M c)
    {seen : List TrueVar} {heap : Heap TrueVar} {inOp : ListPtr}
    (col : Collects seen c.heap c.listOfNotNullInOp heap inOp) :
    Detached N M { c with heap, listOfNotNullInOp := inOp } := by
  obtain ⟨N0, M0, hN, hN0, hM, hM0, hbefore, hbeforeF, hnew⟩ := hd
  have hne : ∀ {l : ListPtr}, c.heap.Before N0 M0 l → ∀ p, l = some p →
      ¬c.listOfNotNullInOp = some p := fun hl p hp he => by
    have := hl.lt hp
    have := hnew.le he
    omega
  exact ⟨N0, M0, hN, hN0.trans col.grows.cells_le, hM, hM0.trans col.grows.lists_le,
    col.grows.before hbefore (hne hbefore), col.grows.before hbeforeF (hne hbeforeF),
    col.fromPtr N0 M0 hN0 hM0 hnew⟩

namespace Walked

variable {M : Nat} {scopes scopes' : List Scope} {rtes rtes' bools bools' : Nat}
  {seen seen' : List TrueVar} {c c1 c2 : ContextWalkerSetConstraint}

theorem refl (cat : Catalog) (M : Nat) (c : ContextWalkerSetConstraint) :
    Walked cat M [] 0 0 [] c c where
  trueVars := (List.append_nil _).symm
  currentTrueVar := rfl
  rtes := rfl
  entriesTrue := ⟨[], (List.append_nil _).symm, rfl⟩
  entriesFalse := ⟨[], (List.append_nil _).symm, rfl⟩
  schema _ ht := .inl ht
  grows := Grows.refl _ _
  inOp _ hp := .inl hp
  data _ ht := .inl ht

theorem trans (w1 : Walked cat M scopes rtes bools seen c c1)
    (w2 : Walked cat M scopes' rtes' bools' seen' c1 c2) :
    Walked cat M (scopes ++ scopes') (rtes + rtes') (bools + bools') (seen ++ seen') c c2 where
  trueVars := by rw [w2.trueVars, w1.trueVars, List.append_assoc]
  currentTrueVar := w2.currentTrueVar.trans w1.currentTrueVar
  rtes := by rw [w2.rtes, w1.rtes, Nat.add_assoc]
  entriesTrue := by
    obtain ⟨new1, h1, hl1⟩ := w1.entriesTrue
    obtain ⟨new2, h2, hl2⟩ := w2.entriesTrue
    exact ⟨new1 ++ new2, by rw [h2, h1, List.append_assoc], by simp [hl1, hl2]⟩
  entriesFalse := by
    obtain ⟨new1, h1, hl1⟩ := w1.entriesFalse
    obtain ⟨new2, h2, hl2⟩ := w2.entriesFalse
    exact ⟨new1 ++ new2, by rw [h2, h1, List.append_assoc], by simp [hl1, hl2]⟩
  schema t ht := by
    rcases w2.schema t ht with h | h
    · exact w1.schema t h
    · exact .inr h
  grows := w1.grows.trans w2.grows fun p hp h => by
    rcases h with h | h
    · exact .inl h
    · exact .inr ((w1.inOp p h).resolve_right (by omega))
  inOp p hp := by
    rcases w2.inOp p hp with h | h
    · exact w1.inOp p h
    · exact .inr (w1.grows.lists_le.trans h)
  data t ht := by
    rcases w2.data t ht with h | h
    · exact (w1.data t h).imp_right fun h => List.mem_append_left _ h
    · exact .inr (List.mem_append_right _ h)

theorem openOpExpr (cat : Catalog) (M : Nat) (c : ContextWalkerSetConstraint) :
    Walked cat M [] 0 0 [] c { c with ready := true, listOfNotNullInOp := none } where
  trueVars := (List.append_nil _).symm
  currentTrueVar := rfl
  rtes := rfl
  entriesTrue := ⟨[], (List.append_nil _).symm, rfl⟩
  entriesFalse := ⟨[], (List.append_nil _).symm, rfl⟩
  schema _ ht := .inl ht
  grows := Grows.refl _ _
  inOp _ hp := by cases hp
  data _ ht := .inl ht

/-- A step that changes the heap and the columns of the last comparison only. -/
theorem ofCollects {heap : Heap TrueVar} {inOp : ListPtr}
    (col : Collects seen c.heap c.listOfNotNullInOp heap inOp) :
    Walked cat M [] 0 0 seen c { c with heap, listOfNotNullInOp := inOp } where
  trueVars := (List.append_nil _).symm
  currentTrueVar := rfl
  rtes := rfl
  entriesTrue := ⟨[], (List.append_nil _).symm, rfl⟩
  entriesFalse := ⟨[], (List.append_nil _).symm, rfl⟩
  schema _ ht := .inl ht
  grows := col.grows.mono fun _ _ h => .inr h
  inOp := col.ptr
  data := col.data

end Walked

namespace WalkInv

variable {N M : Nat} {c c1 c2 : ContextWalkerSetConstraint}

/-- Columns that are appended to no list from before the node. -/
theorem ofCollectsNew (inv : WalkInv N M c) {seen : List TrueVar} {heap : Heap TrueVar}
    {inOp : ListPtr} (col : Collects seen c.heap c.listOfNotNullInOp heap inOp)
    (hnew : ∀ p < M, c.listOfNotNullInOp ≠ some p) :
    WalkInv N M { c with heap, listOfNotNullInOp := inOp } := by
  refine ⟨col.ordered, inv.cells_le.trans col.grows.cells_le,
    inv.lists_le.trans col.grows.lists_le, col.grows.endsBefore inv.old inv.lists_le hnew,
    col.fromPtr 0 0 (Nat.zero_le _) (Nat.zero_le _) inv.inOp, col.grows.fromPtr inv.toBeTrue,
    col.grows.fromPtr inv.toBeFalse, inv.distinct, fun p hp he => ?_,
    fun l hl => col.grows.fromPtr (inv.entriesTrue l hl),
    fun l hl => col.grows.fromPtr (inv.entriesFalse l hl)⟩
  have hl := inv.lists_le
  rcases col.ptr p he with h | h
  · exact absurd h (hnew p hp)
  · omega

theorem ofCollects (inv : WalkInv N M c) {seen : List TrueVar} {heap : Heap TrueVar}
    {inOp : ListPtr}
    (col : Collects seen c.heap c.listOfNotNullInOp heap inOp) :
    ∃ N' ≥ N, WalkInv N' M { c with heap, listOfNotNullInOp := inOp } := by
  by_cases hstale : ∃ p < M, c.listOfNotNullInOp = some p
  · obtain ⟨p, hp, he⟩ := hstale
    obtain ⟨ht, hf⟩ := inv.stale p hp he
    refine ⟨heap.cells.length, inv.cells_le.trans col.grows.cells_le, col.ordered, Nat.le_refl _,
      inv.lists_le.trans col.grows.lists_le, col.ordered.endsBefore M,
      col.fromPtr 0 0 (Nat.zero_le _) (Nat.zero_le _) inv.inOp, ?_, ?_, inv.distinct,
      fun _ _ _ => ⟨ht, hf⟩, fun l hl => col.grows.fromPtr (inv.entriesTrue l hl),
      fun l hl => col.grows.fromPtr (inv.entriesFalse l hl)⟩
    · simp only [ht]
      trivial
    · simp only [hf]
      trivial
  · exact ⟨N, Nat.le_refl _, inv.ofCollectsNew col fun p hp e => hstale ⟨p, hp, e⟩⟩

/-- The start of a comparison whose columns are collected. -/
theorem openOpExpr (inv : WalkInv N M c) :
    WalkInv N M { c with ready := true, listOfNotNullInOp := none } :=
  ⟨inv.ordered, inv.cells_le, inv.lists_le, inv.old, trivial, inv.toBeTrue, inv.toBeFalse,
    inv.distinct, fun _ _ h => (by cases h), inv.entriesTrue, inv.entriesFalse⟩

/-- The lists from before a comparison are all older than what it collects. -/
theorem before_toBeTrue (inv : WalkInv N M c) :
    c.heap.Before c.heap.cells.length c.heap.lists.length c.listOfNotNullToBeTrue :=
  (inv.ordered.endsBefore _).before inv.toBeTrue fun _ => inv.toBeTrue.lt

theorem before_toBeFalse (inv : WalkInv N M c) :
    c.heap.Before c.heap.cells.length c.heap.lists.length c.listOfNotNullToBeFalse :=
  (inv.ordered.endsBefore _).before inv.toBeFalse fun _ => inv.toBeFalse.lt

/-- Before the first column of a comparison, and after arithmetic that leaves no column. -/
theorem detached (inv : WalkInv N M c) (hin : c.listOfNotNullInOp = none) : Detached N M c :=
  ⟨_, _, inv.cells_le, Nat.le_refl _, inv.lists_le, Nat.le_refl _, inv.before_toBeTrue,
    inv.before_toBeFalse, hin ▸ trivial⟩

/-- The end of a comparison: its columns are linked to those collected before it. -/
theorem closeOpExpr (cat : Catalog) (inv : WalkInv N M c) (hd : Detached N M c) :
    ∃ c', c.closeOpExpr = some c' ∧ Walked cat M [] 0 0 [] c c' ∧ WalkInv N M c' ∧
      c'.heap.From N M c'.listOfNotNullInOp ∧ c'.listOfNotNullInOp = c.listOfNotNullInOp ∧
      c'.ready = c.ready := by
  obtain ⟨N0, M0, hN0, _, hM0, _, hbefore, hbeforeF, hnew⟩ := hd
  obtain ⟨heap, hcat, hO, _, hdata, g⟩ := inv.ordered.listConcat hbefore hnew
  have hnew' : heap.From N M c.listOfNotNullInOp := (g.fromPtr hnew).mono hN0 hM0
  refine ⟨{ c with heap, listOfNotNullToBeTrue := c.listOfNotNullToBeTrue.or c.listOfNotNullInOp },
    by simp [ContextWalkerSetConstraint.closeOpExpr, hcat], ?_, ?_, hnew', rfl, rfl⟩
  · refine ⟨(List.append_nil _).symm, rfl, rfl, ⟨[], (List.append_nil _).symm, rfl⟩,
      ⟨[], (List.append_nil _).symm, rfl⟩, fun _ ht => .inl ht,
      g.mono fun p _ h => .inl (inv.toBeTrue.le h), fun _ hp => .inl hp, fun t ht => .inl ?_⟩
    rw [← hdata]
    exact ht
  · refine ⟨hO, inv.cells_le.trans g.cells_le, inv.lists_le.trans g.lists_le,
      g.endsBefore inv.old inv.lists_le fun p hp h => ?_, hnew'.valid,
      (g.fromPtr inv.toBeTrue).or hnew', g.fromPtr inv.toBeFalse, fun p hp hq => ?_,
      fun p hp he => ?_, fun l hl => g.fromPtr (inv.entriesTrue l hl),
      fun l hl => g.fromPtr (inv.entriesFalse l hl)⟩
    · have := inv.toBeTrue.le h
      omega
    · rcases Option.or_eq_some_iff.mp hp with hp | ⟨_, hp⟩
      · exact inv.distinct p hp hq
      · have := hnew.le hp
        have := hbeforeF.lt hq
        omega
    · have := hnew'.le he
      omega

/-- The scopes, the schema list, and the counter play no part in the invariant. -/
theorem ofScope (inv : WalkInv N M c) (trueVars : List Scope) (currentTrueVar : Scope)
    (schema : List TrueVar) (rtes : Nat) :
    WalkInv N M { c with trueVars, currentTrueVar, listOfNotNullAttSchem := schema, rtes } :=
  ⟨inv.ordered, inv.cells_le, inv.lists_le, inv.old, inv.inOp, inv.toBeTrue, inv.toBeFalse,
    inv.distinct, inv.stale, inv.entriesTrue, inv.entriesFalse⟩

/-- The start of a `BoolExpr`. -/
theorem openBoolExpr (inv : WalkInv N M c) :
    WalkInv c.heap.cells.length c.heap.lists.length c.openBoolExpr :=
  ⟨inv.ordered, Nat.le_refl _, Nat.le_refl _, inv.ordered.endsBefore _, inv.inOp, trivial, trivial,
    fun _ h => (by cases h), fun _ _ _ => ⟨rfl, rfl⟩, inv.entriesTrue, inv.entriesFalse⟩

/-- The end of a `BoolExpr`: the lists `x` and `y` that the node collected are linked to those from
before it. -/
theorem closeBoolExpr (inv : WalkInv N M c) {N1 : Nat} (hN : c.heap.cells.length ≤ N1)
    (inv1 : WalkInv N1 c.heap.lists.length c1) {scopes : List Scope} {rtes bools : Nat}
    {seen : List TrueVar}
    (w : Walked cat c.heap.lists.length scopes rtes bools seen c.openBoolExpr c1) {x y : ListPtr}
    (hnone : c1.listOfNotNullToBeTrue = none → c1.listOfNotNullToBeFalse = none →
      x = none ∧ y = none)
    (hxy : ∀ p, x = some p → y ≠ some p) (hO : c2.heap.Ordered)
    (g : Grows (fun p => c.listOfNotNullToBeTrue = some p ∨ c.listOfNotNullToBeFalse = some p)
      c1.heap c2.heap)
    (hin : c2.listOfNotNullInOp = c1.listOfNotNullInOp)
    (hx : c2.heap.From N1 c.heap.lists.length x) (hy : c2.heap.From N1 c.heap.lists.length y)
    (ht : c2.listOfNotNullToBeTrue = c.listOfNotNullToBeTrue.or x)
    (hf : c2.listOfNotNullToBeFalse = c.listOfNotNullToBeFalse.or y)
    (htrue : ∀ l ∈ c2.listListTrue, c2.heap.From 0 0 l)
    (hfalse : ∀ l ∈ c2.listListFalse, c2.heap.From 0 0 l) :
    ∃ N' ≥ N, WalkInv N' M c2 := by
  have hM := inv.lists_le
  have hcells : c.heap.cells.length ≤ c2.heap.cells.length :=
    w.grows.cells_le.trans g.cells_le
  have hlists : M ≤ c2.heap.lists.length := hM.trans (w.grows.lists_le.trans g.lists_le)
  have hinOp : c2.heap.From 0 0 c2.listOfNotNullInOp := hin ▸ g.fromPtr inv1.inOp
  have hdist : ∀ p, c2.listOfNotNullToBeTrue = some p → c2.listOfNotNullToBeFalse ≠ some p := by
    intro p hp hq
    rw [ht, Option.or_eq_some_iff] at hp
    rw [hf, Option.or_eq_some_iff] at hq
    rcases hp with hp | ⟨_, hp⟩ <;> rcases hq with hq | ⟨_, hq⟩
    · exact inv.distinct p hp hq
    · exact absurd (inv.toBeTrue.lt hp) (by have := hy.le hq; omega)
    · exact absurd (inv.toBeFalse.lt hq) (by have := hx.le hp; omega)
    · exact hxy p hp hq
  by_cases hstale1 : ∃ p < M, c1.listOfNotNullInOp = some p
  · -- no comparison in the node: nothing was collected, before it or in it
    obtain ⟨p, hp, he⟩ := hstale1
    obtain ⟨ht0, hf0⟩ := inv.stale p hp ((w.inOp p he).resolve_right
      fun (h : c.heap.lists.length ≤ p) => by omega)
    obtain ⟨ht1, hf1⟩ := inv1.stale p (hp.trans_le hM) he
    obtain ⟨rfl, rfl⟩ := hnone ht1 hf1
    rw [ht0, Option.none_or] at ht
    rw [hf0, Option.none_or] at hf
    exact ⟨c2.heap.cells.length, inv.cells_le.trans hcells, hO, Nat.le_refl _, hlists,
      hO.endsBefore M, hinOp, ht ▸ trivial, hf ▸ trivial, hdist,
        fun _ _ _ => ⟨ht, hf⟩, htrue, hfalse⟩
  have hstale2 : ∀ p < M, c2.listOfNotNullInOp = some p →
      c2.listOfNotNullToBeTrue = none ∧ c2.listOfNotNullToBeFalse = none :=
    fun p hp he => absurd ⟨p, hp, hin ▸ he⟩ hstale1
  by_cases hstale : ∃ p < M, c.listOfNotNullInOp = some p
  · obtain ⟨p, hp, he⟩ := hstale
    obtain ⟨ht0, hf0⟩ := inv.stale p hp he
    rw [ht0, Option.none_or] at ht
    rw [hf0, Option.none_or] at hf
    refine ⟨N1, inv.cells_le.trans hN, hO, inv1.cells_le.trans g.cells_le, hlists, ?_, hinOp,
      ht ▸ hx.mono (Nat.le_refl _) hM, hf ▸ hy.mono (Nat.le_refl _) hM, hdist, hstale2, htrue,
      hfalse⟩
    refine g.endsBefore (inv1.old.mono hM (Nat.le_refl _)) (hM.trans w.grows.lists_le) ?_
    rintro q _ (h | h)
    · rw [ht0] at h
      cases h
    · rw [hf0] at h
      cases h
  · have hN' := inv.cells_le.trans hN
    refine ⟨N, Nat.le_refl _, hO, inv.cells_le.trans hcells, hlists, ?_, hinOp,
      ht ▸ (g.fromPtr (w.grows.fromPtr inv.toBeTrue)).or (hx.mono hN' hM),
      hf ▸ (g.fromPtr (w.grows.fromPtr inv.toBeFalse)).or (hy.mono hN' hM), hdist, hstale2, htrue,
      hfalse⟩
    have hold1 : c1.heap.EndsBefore M N := w.grows.endsBefore inv.old hM fun p hp h => by
      rcases h with h | h
      · omega
      · exact hstale ⟨p, hp, h⟩
    refine g.endsBefore hold1 (hM.trans w.grows.lists_le) ?_
    rintro q hq (h | h)
    · have := inv.toBeTrue.le h
      omega
    · have := inv.toBeFalse.le h
      omega

end WalkInv

/-! ### The cases of the walker -/

section Cases

variable (P : Pass α) {os : Scopes} {N M : Nat} {c : ContextWalkerSetConstraint}

/-- A comparison whose columns are collected: they are linked to those collected before it. -/
theorem Pass.myWalker_collects {opno : Oid} {args : List (Node α)} (hop : P.collects opno = true)
    (hargs : ∀ a ∈ args, Operand cat os a) (hs : c.currentTrueVar.Resolves cat os)
    (inv : WalkInv N M c) :
    ∃ c', P.myWalker cat (.opExpr opno args) c = some c' ∧
      Walked cat M [] 0 0 (args.filterMap (operandVar c.currentTrueVar)) c c' ∧
      WalkInv N M c' := by
  obtain ⟨heap, inOp, hrun, col⟩ := P.myWalkerList_operands hargs
    (c := { c with ready := true, listOfNotNullInOp := none }) hs inv.ordered trivial
  have hnew : ∀ p, ¬(none : ListPtr) = some p := fun _ h => by cases h
  have hd := (inv.openOpExpr.detached rfl).ofCollects col
  obtain ⟨c', hclose, w, inv', _⟩ :=
    (inv.openOpExpr.ofCollectsNew col fun p _ => hnew p).closeOpExpr cat hd
  refine ⟨c', by simp [Pass.myWalker, Pass.openOpExpr, hop, hrun, hclose], ?_, inv'⟩
  simpa using ((Walked.openOpExpr cat M c).trans (Walked.ofCollects col)).trans w

theorem Pass.myWalker_atom {a : Node α} (ha : Atom cat os a)
    (hs : c.currentTrueVar.Resolves cat os) (inv : WalkInv N M c) :
    ∃ c', P.myWalker cat a c = some c' ∧
      Walked cat M (queryScopes cat a c.currentTrueVar c.rtes) (rteCount a) (boolCount a)
        (seenVars cat a c.currentTrueVar c.rtes) c c' ∧ ∃ N' ≥ N, WalkInv N' M c' := by
  cases ha with
  | @comparison opno args hargs =>
    by_cases hop : P.collects opno = true
    · obtain ⟨c', hrun, w, inv'⟩ := P.myWalker_collects hop hargs hs inv
      exact ⟨c', hrun, by simpa [queryScopes, rteCount, boolCount, seenVars] using w, N,
        Nat.le_refl _, inv'⟩
    · obtain ⟨heap, inOp, hrun, col⟩ := P.myWalkerList_operands hargs hs inv.ordered inv.inOp
      refine ⟨_, by simp [Pass.myWalker, Pass.openOpExpr, hop, hrun], ?_, inv.ofCollects col⟩
      simpa [queryScopes, rteCount, boolCount, seenVars] using Walked.ofCollects col
  | @nullTest test arg harg =>
    obtain ⟨heap, inOp, hrun, col⟩ := P.myWalker_operand hs harg inv.ordered inv.inOp
    refine ⟨_, by simp [Pass.myWalker, hrun], ?_, inv.ofCollects col⟩
    simpa [queryScopes, rteCount, boolCount, seenVars] using Walked.ofCollects col

/-- The body of a `BoolExpr` and its end, as the whole node. -/
theorem Walked.ofBody {scopes : List Scope} {rtes bools : Nat} {seen : List TrueVar}
    {c1 c2 : ContextWalkerSetConstraint} (bools' : Nat) (inv : WalkInv N M c)
    (w : Walked cat c.heap.lists.length scopes rtes bools seen c.openBoolExpr c1)
    (w2 : Walked cat M [] 0 bools' seen c1 c2) :
    Walked cat M scopes rtes (bools + bools') seen c c2 := by
  have w1 : Walked cat M scopes rtes bools seen c c1 :=
    ⟨w.trueVars, w.currentTrueVar, w.rtes, w.entriesTrue, w.entriesFalse, w.schema,
      w.grows.mono fun p hp h => h.imp_left fun h => inv.lists_le.trans h, w.inOp, w.data⟩
  refine ⟨?_, w2.currentTrueVar.trans w1.currentTrueVar, w2.rtes.trans w1.rtes, ?_, ?_, ?_, ?_, ?_,
    ?_⟩
  · rw [w2.trueVars, w1.trueVars, List.append_nil]
  · exact (w1.trans w2).entriesTrue
  · exact (w1.trans w2).entriesFalse
  · exact (w1.trans w2).schema
  · exact (w1.trans w2).grows
  · exact (w1.trans w2).inOp
  · exact fun t ht => ((w1.trans w2).data t ht).imp_right fun h => by simpa using h

/-- The end of a `BoolExpr`: the lists `x` and `y` of its body are linked to the two lists
collected before the node. -/
theorem WalkInv.link {N1 : Nat} {c1 : ContextWalkerSetConstraint} (inv : WalkInv N M c)
    (inv1 : WalkInv N1 c.heap.lists.length c1) {scopes : List Scope} {rtes bools : Nat}
    {seen : List TrueVar}
    (w : Walked cat c.heap.lists.length scopes rtes bools seen c.openBoolExpr c1)
    {h1 : Heap TrueVar} (hO : h1.Ordered) (g : Grows (fun _ => False) c1.heap h1) {x y : ListPtr}
    (hx : h1.From N1 c.heap.lists.length x) (hy : h1.From N1 c.heap.lists.length y) :
    ∃ h2 h3, h1.listConcat c.listOfNotNullToBeTrue x = some (h2, c.listOfNotNullToBeTrue.or x) ∧
      h2.listConcat c.listOfNotNullToBeFalse y = some (h3, c.listOfNotNullToBeFalse.or y) ∧
      h3.Ordered ∧ h3.data = h1.data ∧
      Grows (fun p => c.listOfNotNullToBeTrue = some p ∨ c.listOfNotNullToBeFalse = some p)
        h1 h3 := by
  have hbeforeT : h1.Before N1 c.heap.lists.length c.listOfNotNullToBeTrue :=
    g.before (inv1.old.before (w.grows.fromPtr inv.toBeTrue) fun p => inv.toBeTrue.lt)
      fun _ _ h => h
  have hbeforeF : h1.Before N1 c.heap.lists.length c.listOfNotNullToBeFalse :=
    g.before (inv1.old.before (w.grows.fromPtr inv.toBeFalse) fun p => inv.toBeFalse.lt)
      fun _ _ h => h
  obtain ⟨h2, hcat2, hO2, _, hdata2, g2⟩ := hO.listConcat hbeforeT hx
  -- the first link may only have written to the other list
  obtain ⟨h3, hcat3, hO3, _, hdata3, g3⟩ := hO2.listConcat
    (g2.before hbeforeF fun p hf ht => inv.distinct p ht hf) (g2.fromPtr hy)
  exact ⟨h2, h3, hcat2, hcat3, hO3, hdata3.trans hdata2,
    (g2.mono fun p _ h => .inl h).trans g3 fun p _ h => .inr h⟩

theorem myWalker_closeNot {N1 : Nat} {c1 : ContextWalkerSetConstraint} (inv : WalkInv N M c)
    (hN : c.heap.cells.length ≤ N1) (inv1 : WalkInv N1 c.heap.lists.length c1)
    {scopes : List Scope} {rtes bools : Nat} {seen : List TrueVar}
    (w : Walked cat c.heap.lists.length scopes rtes bools seen c.openBoolExpr c1) :
    ∃ c2, c1.closeNot c.listOfNotNullToBeTrue c.listOfNotNullToBeFalse = some c2 ∧
      Walked cat M scopes rtes bools seen c c2 ∧ ∃ N' ≥ N, WalkInv N' M c2 := by
  obtain ⟨heap2, heap3, hcat2, hcat3, hO3, hdata3, g⟩ := inv.link inv1 w inv1.ordered
    (Grows.refl _ _) inv1.toBeFalse inv1.toBeTrue
  refine ⟨{ c1 with
      heap := heap3
      listOfNotNullToBeTrue := c.listOfNotNullToBeTrue.or c1.listOfNotNullToBeFalse
      listOfNotNullToBeFalse := c.listOfNotNullToBeFalse.or c1.listOfNotNullToBeTrue }, ?_,
    Walked.ofBody 0 inv w ?_, inv.closeBoolExpr hN inv1 w (fun ht hf => ⟨hf, ht⟩)
      (fun p hx hy => inv1.distinct p hy hx) hO3 g rfl (g.fromPtr inv1.toBeFalse)
      (g.fromPtr inv1.toBeTrue) rfl rfl (fun l hl => g.fromPtr (inv1.entriesTrue l hl))
      fun l hl => g.fromPtr (inv1.entriesFalse l hl)⟩
  · simp [ContextWalkerSetConstraint.closeNot, hcat2, hcat3]
  refine ⟨(List.append_nil _).symm, rfl, rfl, ⟨[], (List.append_nil _).symm, rfl⟩,
    ⟨[], (List.append_nil _).symm, rfl⟩, fun _ ht => .inl ht, g.mono fun p _ h => .inl ?_,
    fun _ hp => .inl hp, fun t ht => .inl ?_⟩
  · rcases h with h | h
    · exact inv.toBeTrue.le h
    · exact inv.toBeFalse.le h
  · rw [← hdata3]
    exact ht

theorem myWalker_closeBoolExpr (isAnd : Bool) (nbArg : Nat) {N1 : Nat}
    {c1 : ContextWalkerSetConstraint} (inv : WalkInv N M c)
    (hN : c.heap.cells.length ≤ N1) (inv1 : WalkInv N1 c.heap.lists.length c1)
    {scopes : List Scope} {rtes bools : Nat} {seen : List TrueVar}
    (w : Walked cat c.heap.lists.length scopes rtes bools seen c.openBoolExpr c1) :
    ∃ c2, c1.closeBoolExpr isAnd nbArg c.listOfNotNullToBeTrue c.listOfNotNullToBeFalse = some c2 ∧
      Walked cat M scopes rtes (bools + 1) seen c c2 ∧ ∃ N' ≥ N, WalkInv N' M c2 := by
  have hlists : c.heap.lists.length ≤ c1.heap.lists.length := w.grows.lists_le
  obtain ⟨toBeTrue, htrue⟩ := inv1.ordered.foreach inv1.toBeTrue.valid
  obtain ⟨heap2, lTrue, hrun2, hO2, g2, hnew2, hdata2, hnil2⟩ := inv1.ordered.lappendAll
    (if isAnd then unionList toBeTrue else interList toBeTrue nbArg)
  obtain ⟨toBeFalse, hfalse⟩ := hO2.foreach (g2.fromPtr inv1.toBeFalse.valid)
  obtain ⟨heap3, lFalse, hrun3, hO3, g3, hnew3, hdata3, hnil3⟩ := hO2.lappendAll
    (if isAnd then interList toBeFalse nbArg else unionList toBeFalse)
  have g13 : Grows (fun _ => False) c1.heap heap3 := g2.trans g3 fun _ _ h => h
  have hxT : heap3.From N1 c.heap.lists.length lTrue :=
    g3.fromPtr (hnew2.mono inv1.cells_le hlists)
  have hxF : heap3.From N1 c.heap.lists.length lFalse :=
    hnew3.mono (inv1.cells_le.trans g2.cells_le) (hlists.trans g2.lists_le)
  obtain ⟨heap4, heap5, hcat4, hcat5, hO5, hdata5, g35⟩ := inv.link inv1 w hO3 g13 hxT hxF
  have g : Grows (fun p => c.listOfNotNullToBeTrue = some p ∨ c.listOfNotNullToBeFalse = some p)
      c1.heap heap5 := (g13.mono fun _ _ h => h.elim).trans g35 fun _ _ h => h
  have hnone : c1.listOfNotNullToBeTrue = none → c1.listOfNotNullToBeFalse = none →
      lTrue = none ∧ lFalse = none := by
    intro ht hf
    rw [ht] at htrue
    rw [hf] at hfalse
    cases htrue
    cases hfalse
    exact ⟨hnil2 (by cases isAnd <;> rfl), hnil3 (by cases isAnd <;> rfl)⟩
  have hxy : ∀ p, lTrue = some p → lFalse ≠ some p := fun p ht hf => by
    have h1 := hnew2.lt ht
    have h2 := hnew3.le hf
    omega
  refine ⟨{ c1 with
      listListTrue := c1.listListTrue ++ [lTrue]
      listListFalse := c1.listListFalse ++ [lFalse]
      listOfNotNullToBeTrue := c.listOfNotNullToBeTrue.or lTrue
      listOfNotNullToBeFalse := c.listOfNotNullToBeFalse.or lFalse
      heap := heap5 }, ?_, Walked.ofBody 1 inv w ?_, inv.closeBoolExpr hN inv1 w hnone hxy hO5 g rfl
      (g35.fromPtr hxT) (g35.fromPtr hxF) rfl rfl ?_ ?_⟩
  · simp [ContextWalkerSetConstraint.closeBoolExpr, htrue, hrun2, hfalse, hrun3, hcat4, hcat5]
  · refine ⟨(List.append_nil _).symm, rfl, rfl, ⟨[lTrue], rfl, rfl⟩, ⟨[lFalse], rfl, rfl⟩,
      fun _ ht => .inl ht, g.mono fun p _ h => .inl ?_, fun _ hp => .inl hp, fun t ht => .inl ?_⟩
    · rcases h with h | h
      · exact inv.toBeTrue.le h
      · exact inv.toBeFalse.le h
    · -- the new cells hold columns that the old ones hold
      have hin2 : ∀ t ∈ heap2.data, t ∈ c1.heap.data := fun t ht => by
        rcases hdata2 t ht with h | h
        · exact h
        · refine mem_data_of_foreach htrue t ?_
          split at h <;> exact mem_of_mem_keepNew h
      have ht3 : t ∈ heap3.data := by
        rw [← hdata5]
        exact ht
      rcases hdata3 t ht3 with h | h
      · exact hin2 t h
      · refine hin2 t (mem_data_of_foreach hfalse t ?_)
        split at h <;> exact mem_of_mem_keepNew h
  · intro l hl
    rcases List.mem_append.mp hl with hl | hl
    · exact g.fromPtr (inv1.entriesTrue l hl)
    · rw [List.mem_singleton.mp hl]
      exact g35.fromPtr hxT.valid
  · intro l hl
    rcases List.mem_append.mp hl with hl | hl
    · exact g.fromPtr (inv1.entriesFalse l hl)
    · rw [List.mem_singleton.mp hl]
      exact g35.fromPtr hxF.valid

/-- The range table of a query over base tables. -/
theorem Pass.myWalkerList_baseTables (cat : Catalog) (relids : List Oid) {parent : Scope}
    {relations : List (List TrueVar)} (hc : c.currentTrueVar = .level parent relations) :
    ∃ schema, P.myWalkerList cat (relids.map baseTable) c = some { c with
        currentTrueVar := .level parent
          (relations ++ relids.mapIdx fun i relid => relationVars cat (c.rtes + i) relid)
        rtes := c.rtes + relids.length
        listOfNotNullAttSchem := schema } ∧
      ∀ t ∈ schema, t ∈ c.listOfNotNullAttSchem ∨ cat.attnotnull t.vartype t.varattno = true := by
  induction relids generalizing c relations with
  | nil => exact ⟨_, by simp [Pass.myWalkerList, ← hc], fun t ht => .inl ht⟩
  | cons relid relids ih =>
    have hc' : (c.addRelation cat relid).currentTrueVar =
        .level parent (relations ++ [relationVars cat c.rtes relid]) := by
      simp [ContextWalkerSetConstraint.addRelation, hc, Scope.lappend]
    obtain ⟨schema, hrun, hschema⟩ := ih hc'
    refine ⟨schema, ?_, fun t ht => ?_⟩
    · simp only [List.map_cons, Pass.myWalkerList, baseTable, Pass.myWalker, Option.bind_eq_bind,
        Option.bind_some]
      rw [hrun]
      simp [ContextWalkerSetConstraint.addRelation, List.mapIdx_cons, Nat.add_assoc, Nat.add_comm 1]
    · rcases hschema t ht with h | h
      · rcases List.mem_append.mp h with h | h
        · exact .inl h
        · obtain ⟨hrel, hnn⟩ := List.mem_filter.mp h
          obtain ⟨i, _, rfl⟩ := List.mem_map.mp hrel
          exact .inr hnn
      · exact .inr h

/-- The context inside a query over base tables. -/
def ContextWalkerSetConstraint.enter (c : ContextWalkerSetConstraint) (cat : Catalog)
    (relids : List Oid) (schema : List TrueVar) : ContextWalkerSetConstraint :=
  { c with
    currentTrueVar := c.currentTrueVar.enter cat c.rtes relids
    rtes := c.rtes + relids.length
    listOfNotNullAttSchem := schema
    trueVars := c.trueVars ++ [c.currentTrueVar.enter cat c.rtes relids] }

theorem Pass.openQuery_baseTables (cat : Catalog) (relids : List Oid)
    (c : ContextWalkerSetConstraint) :
    ∃ schema, P.openQuery cat (relids.map baseTable) c = some (c.enter cat relids schema) ∧
      ∀ t ∈ schema, t ∈ c.listOfNotNullAttSchem ∨ cat.attnotnull t.vartype t.varattno = true := by
  obtain ⟨schema, hrun, hschema⟩ := P.myWalkerList_baseTables cat relids
    (c := { c with currentTrueVar := .level c.currentTrueVar [] }) rfl
  refine ⟨schema, ?_, hschema⟩
  rw [Pass.openQuery, hrun]
  rfl

/-- What a query's condition collected, as collected by the query. -/
theorem Walked.ofQuery {relids : List Oid} {schema : List TrueVar} {scopes : List Scope}
    {rtes bools : Nat} {seen : List TrueVar} {c1 : ContextWalkerSetConstraint}
    (hschema : ∀ t ∈ schema, t ∈ c.listOfNotNullAttSchem ∨
      cat.attnotnull t.vartype t.varattno = true)
    (w : Walked cat M scopes rtes bools seen (c.enter cat relids schema) c1) :
    Walked cat M (c.currentTrueVar.enter cat c.rtes relids :: scopes) (relids.length + rtes) bools
      seen c { c1 with currentTrueVar := c.currentTrueVar } := by
  refine ⟨?_, rfl, ?_, w.entriesTrue, w.entriesFalse, fun t ht => ?_, w.grows, w.inOp, w.data⟩
  · simpa [ContextWalkerSetConstraint.enter] using w.trueVars
  · rw [← Nat.add_assoc]
    exact w.rtes
  · rcases w.schema t ht with h | h
    · exact hschema t h
    · exact .inr h

/-- The `Query` case, from its start on. -/
theorem Pass.myWalker_selectFrom (targetList : List (Node α)) (relids : List Oid) (quals : Node α) :
    P.myWalker cat (selectFrom targetList relids quals) c = (do
      let c1 ← P.openQuery cat (relids.map baseTable) c
      let c2 ← P.myWalker cat quals c1
      some { c2 with currentTrueVar := c.currentTrueVar }) := by
  simp only [selectFrom, Pass.myWalker, Pass.openQuery, Option.bind_eq_bind, Option.bind_assoc,
    Option.bind_some]

end Cases

/-! ### The whole walk -/

/-- From every context in which the tables `os` are in scope, the walker returns, keeping its
invariant, and comes to the columns `seen` only. -/
def Pass.WalksOn (P : Pass α) (cat : Catalog) (os : Scopes) (seen : Scope → Nat → List TrueVar)
    (node : Node α) : Prop :=
  ∀ (N M : Nat) (c : ContextWalkerSetConstraint), c.currentTrueVar.Resolves cat os → WalkInv N M c →
    ∃ c', P.myWalker cat node c = some c' ∧
      Walked cat M (queryScopes cat node c.currentTrueVar c.rtes) (rteCount node) (boolCount node)
        (seen c.currentTrueVar c.rtes) c c' ∧ ∃ N' ≥ N, WalkInv N' M c'

/-- The columns of each node in turn. -/
def seenList (see : Node α → Scope → Nat → List TrueVar) :
    List (Node α) → Scope → Nat → List TrueVar
  | [], _, _ => []
  | node :: nodes, scope, rte =>
    see node scope rte ++ seenList see nodes scope (rte + rteCount node)

theorem seenVarsList_eq (cat : Catalog) (nodes : List (Node α)) :
    seenVarsList cat nodes = seenList (seenVars cat) nodes := by
  induction nodes with
  | nil => rfl
  | cons node nodes ih =>
    funext scope rte
    rw [seenVarsList, seenList, ih]

section

variable (P : Pass α) {os : Scopes} {see : Node α → Scope → Nat → List TrueVar}

theorem Pass.myWalkerList_on {args : List (Node α)}
    (hargs : ∀ a ∈ args, P.WalksOn cat os (see a) a)
    {N M : Nat} {c : ContextWalkerSetConstraint} (hs : c.currentTrueVar.Resolves cat os)
    (inv : WalkInv N M c) :
    ∃ c', P.myWalkerList cat args c = some c' ∧
      Walked cat M (queryScopesList cat args c.currentTrueVar c.rtes) (rteCountList args)
        (boolCountList args) (seenList see args c.currentTrueVar c.rtes) c c' ∧
      ∃ N' ≥ N, WalkInv N' M c' := by
  induction args generalizing N c with
  | nil => exact ⟨c, rfl, Walked.refl cat M c, N, Nat.le_refl _, inv⟩
  | cons a args ih =>
    obtain ⟨c1, hrun1, w1, N1, hN1, inv1⟩ := hargs a List.mem_cons_self N M c hs inv
    obtain ⟨c2, hrun2, w2, N2, hN2, inv2⟩ := ih (fun b hb => hargs b (List.mem_cons_of_mem _ hb))
      (w1.currentTrueVar.symm ▸ hs) inv1
    refine ⟨c2, by simp [Pass.myWalkerList, hrun1, hrun2], ?_, N2, hN1.trans hN2, inv2⟩
    rw [w1.currentTrueVar, w1.rtes] at w2
    exact w1.trans w2

theorem Pass.walksOn_boolExpr {args : List (Node α)} (boolop : BoolExprType) (hne : args ≠ [])
    (hargs : ∀ a ∈ args, P.WalksOn cat os (see a) a) :
    P.WalksOn cat os (seenList see args) (.boolExpr boolop args) := by
  intro N M c hs inv
  obtain ⟨c1, hrun, w, N1, hN1, inv1⟩ := P.myWalkerList_on hargs
    (c := c.openBoolExpr) hs inv.openBoolExpr
  have hempty : args.isEmpty = false := by simpa using hne
  cases boolop with
  | notExpr =>
    obtain ⟨c2, hclose, w2, hinv2⟩ := myWalker_closeNot inv hN1 inv1 w
    exact ⟨c2, by simp [Pass.myWalker, hempty, hrun, hclose], w2, hinv2⟩
  | andExpr =>
    obtain ⟨c2, hclose, w2, hinv2⟩ := myWalker_closeBoolExpr true args.length inv hN1 inv1 w
    exact ⟨c2, by simp [Pass.myWalker, hempty, hrun, hclose], w2, hinv2⟩
  | orExpr =>
    obtain ⟨c2, hclose, w2, hinv2⟩ := myWalker_closeBoolExpr false args.length inv hN1 inv1 w
    exact ⟨c2, by simp [Pass.myWalker, hempty, hrun, hclose], w2, hinv2⟩

theorem Pass.walksOn_selectFrom (targetList : List (Node α)) {relids : List Oid} {quals : Node α}
    {seen : Scope → Nat → List TrueVar} (hquals : P.WalksOn cat (relids :: os) seen quals) :
    P.WalksOn cat os (fun scope rte => seen (scope.enter cat rte relids) (rte + relids.length))
      (selectFrom targetList relids quals) := by
  intro N M c hs inv
  obtain ⟨schema, hopen, hschema⟩ := P.openQuery_baseTables cat relids c
  obtain ⟨c', hrun, w, N', hN', inv'⟩ := hquals N M (c.enter cat relids schema)
    (hs.enter c.rtes relids) (inv.ofScope _ _ _ _)
  refine ⟨{ c' with currentTrueVar := c.currentTrueVar }, ?_, ?_, N', hN', inv'.ofScope _ _ _ _⟩
  · simp only [P.myWalker_selectFrom, hopen, hrun, Option.bind_eq_bind, Option.bind_some]
  · rw [selectFrom, queryScopes, rteCount, map_relidOf_baseTable, List.length_map]
    exact Walked.ofQuery hschema w

end

/-- From every context in which the tables `os` are in scope, the walker returns, keeping its
invariant. -/
def Pass.Walks (P : Pass α) (cat : Catalog) (os : Scopes) (node : Node α) : Prop :=
  ∀ (N M : Nat) (c : ContextWalkerSetConstraint), c.currentTrueVar.Resolves cat os → WalkInv N M c →
    ∃ c', P.myWalker cat node c = some c' ∧
      Walked cat M (queryScopes cat node c.currentTrueVar c.rtes) (rteCount node) (boolCount node)
        (seenVars cat node c.currentTrueVar c.rtes) c c' ∧ ∃ N' ≥ N, WalkInv N' M c'

section

variable (P : Pass α) {os : Scopes}

theorem Pass.myWalkerList_spec {args : List (Node α)} (hargs : ∀ a ∈ args, P.Walks cat os a)
    {N M : Nat} {c : ContextWalkerSetConstraint} (hs : c.currentTrueVar.Resolves cat os)
    (inv : WalkInv N M c) :
    ∃ c', P.myWalkerList cat args c = some c' ∧
      Walked cat M (queryScopesList cat args c.currentTrueVar c.rtes) (rteCountList args)
        (boolCountList args) (seenVarsList cat args c.currentTrueVar c.rtes) c c' ∧
      ∃ N' ≥ N, WalkInv N' M c' := by
  rw [seenVarsList_eq]
  exact P.myWalkerList_on hargs hs inv

theorem Pass.walks_boolExpr {args : List (Node α)} (boolop : BoolExprType) (hne : args ≠ [])
    (hargs : ∀ a ∈ args, P.Walks cat os a) : P.Walks cat os (.boolExpr boolop args) := by
  have hseen : seenVars cat (.boolExpr boolop args) = seenList (seenVars cat) args := by
    funext scope rte
    rw [seenVars, seenVarsList_eq]
  have hwalks := P.walksOn_boolExpr boolop hne hargs
  rwa [← hseen] at hwalks

theorem Pass.walks_selectFrom {targetList : List (Node α)} {relids : List Oid} {quals : Node α}
    (hquals : P.Walks cat (relids :: os) quals) :
    P.Walks cat os (selectFrom targetList relids quals) := by
  have hseen : seenVars cat (selectFrom targetList relids quals) = fun scope rte =>
      seenVars cat quals (scope.enter cat rte relids) (rte + relids.length) := by
    funext scope rte
    rw [selectFrom, seenVars, map_relidOf_baseTable, List.length_map]
  have hwalks := P.walksOn_selectFrom targetList hquals
  rwa [← hseen] at hwalks

/-- The walker returns on every condition over comparisons and null tests. -/
theorem Pass.walks_cond {node : Node α} {freeNot : Prop} (h : Cond (Atom cat) freeNot os node) :
    P.Walks cat os node := by
  induction h with
  | leaf ha => exact fun _ _ _ => P.myWalker_atom ha
  | null => exact fun N M c _ inv => ⟨c, rfl, Walked.refl cat M c, N, Nat.le_refl _, inv⟩
  | and hne _ ih => exact P.walks_boolExpr .andExpr hne ih
  | or hne _ ih => exact P.walks_boolExpr .orExpr hne ih
  | not _ _ ih =>
    refine P.walks_boolExpr .notExpr (by simp) fun b hb => ?_
    rw [List.mem_singleton.mp hb]
    exact ih
  | exist _ ih =>
    intro N M c hs inv
    obtain ⟨c', hrun, w, hinv⟩ := P.walks_selectFrom ih N M c hs inv
    exact ⟨c', by simpa [existsFrom, Pass.myWalker] using hrun, w, hinv⟩

theorem walkInv_make : WalkInv 0 0 makeContextWalkerSetConstraint :=
  ⟨ordered_empty, Nat.le_refl _, Nat.le_refl _, fun _ h => absurd h (Nat.not_lt_zero _), trivial,
    trivial, trivial, fun _ h => (by cases h), fun _ h => absurd h (Nat.not_lt_zero _),
    fun _ h => absurd h List.not_mem_nil, fun _ h => absurd h List.not_mem_nil⟩

end

end Infed
