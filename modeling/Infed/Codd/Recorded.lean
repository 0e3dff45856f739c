import Infed.CellLater
import Infed.Codd.Pass
import Infed.NotNull
import Infed.Walk

/-! What `my_walker` records.  The list that it records for an AND/OR node is the same list that it
adds to what the arguments of the enclosing node have collected so far, so the recorded list goes on
with what later arguments add, up to the end of the enclosing node. -/

namespace Infed.Codd

open CellList Heap

variable {α : Type} {cat : Catalog}

/-! ### Null tests -/

mutual

/-- The columns of the last comparison in a tree, if it has one. -/
def lastComparison : Scopes → Node α → Option (Finset Column)
  | os, .opExpr _ args => some (args.filterMap (operandColumn os)).toFinset
  | os, .boolExpr _ args => lastComparisonList os args
  | os, .subLink _ _ subselect => lastComparison os subselect
  | os, .query _ rtable _ quals => lastComparison (rtable.map relidOf :: os) quals
  | _, _ => none

def lastComparisonList : Scopes → List (Node α) → Option (Finset Column)
  | _, [] => none
  | os, node :: nodes => (lastComparisonList os nodes).or (lastComparison os node)

end

mutual

/-- Every null test that comes after a comparison, with `last` for those before the tree, is on a
column of the last one. -/
def covered : Scopes → Option (Finset Column) → Node α → Bool
  | os, last, .nullTest _ arg => (operandColumn os arg).all fun c => last.all fun cols => c ∈ cols
  | os, last, .boolExpr _ args => coveredList os last args
  | os, last, .subLink _ _ subselect => covered os last subselect
  | os, last, .query _ rtable _ quals => covered (rtable.map relidOf :: os) last quals
  | _, _, _ => true

def coveredList : Scopes → Option (Finset Column) → List (Node α) → Bool
  | _, _, [] => true
  | os, last, node :: nodes =>
    covered os last node && coveredList os ((lastComparison os node).or last) nodes

end

/-! ### Entries -/

/-- A set that goes on with another, unless it is empty and so has no list. -/
def extend (set later : Finset Column) : Finset Column := if set = ∅ then ∅ else set ∪ later

mutual

/-- What the entries of the AND/OR nodes of a tree hold in the end, when `laterTrue` and
`laterFalse` are what later arguments of the enclosing node add. -/
def entries (side : Bool) : Scopes → Node α → Finset Column → Finset Column → List (Finset Column)
  | os, .boolExpr .notExpr args, laterTrue, laterFalse =>
    entriesList side os args laterFalse laterTrue
  | os, .boolExpr boolop args, laterTrue, laterFalse =>
    entriesList side os args ∅ ∅ ++
      [extend (notNull side os (.boolExpr boolop args)) (if side then laterTrue else laterFalse)]
  | os, .subLink _ _ subselect, laterTrue, laterFalse => entries side os subselect laterTrue
    laterFalse
  | os, .query _ rtable _ quals, laterTrue, laterFalse =>
    entries side (rtable.map relidOf :: os) quals laterTrue laterFalse
  | _, _, _, _ => []

def entriesList (side : Bool) : Scopes → List (Node α) → Finset Column → Finset Column →
    List (Finset Column)
  | _, [], _, _ => []
  | os, node :: nodes, laterTrue, laterFalse =>
    entries side os node (merge true (notNullList true os nodes) ∪ laterTrue)
        (merge true (notNullList false os nodes) ∪ laterFalse) ++
      entriesList side os nodes laterTrue laterFalse

end

/-! ### The invariant -/

/-- Whatever `as` and `bs` go on with, the recorded lists `new` then hold the columns `spec`. -/
def Future (N : Nat) (h : Heap TrueVar) (as bs : List Nat) (new : List ListPtr)
    (spec : Finset Column → Finset Column → List (Finset Column)) : Prop :=
  ∀ h' xs ys, Later N h as bs xs ys h' →
    List.Forall₂ (fun l set => ∃ vars, h'.foreach l = some vars ∧ columns vars = set) new
      (spec (columns (h'.contents xs)) (columns (h'.contents ys)))

/-- The futures of two parts of the tree in a row: the lists recorded in the first go on with what
the second adds. -/
theorem Future.append {C L : Nat → Prop} {N : Nat} {h1 h2 : Heap TrueVar}
    {as1 bs1 as2 bs2 : List Nat}
    {new1 new2 : List ListPtr} {X Y : Finset Column}
    {spec1 spec2 : Finset Column → Finset Column → List (Finset Column)}
    (fut1 : Future N h1 as1 bs1 new1 spec1) (fut2 : Future h1.cells.length h2 as2 bs2 new2 spec2)
    (f : Frame C L h1 h2) (hC : ∀ a, N ≤ a → C a → IsLast as1 a ∨ IsLast bs1 a)
    (hN : N ≤ h1.cells.length) (has1 : ∀ a ∈ as1, a < h1.cells.length)
    (hbs1 : ∀ a ∈ bs1, a < h1.cells.length) (has2 : ∀ a ∈ as2, h1.cells.length ≤ a)
    (hbs2 : ∀ a ∈ bs2, h1.cells.length ≤ a) (has2' : ∀ a ∈ as2, a < h2.cells.length)
    (hbs2' : ∀ a ∈ bs2, a < h2.cells.length) (hX : columns (h2.contents as2) = X)
    (hY : columns (h2.contents bs2) = Y) :
    Future N h2 (as1 ++ as2) (bs1 ++ bs2) (new1 ++ new2) fun x y =>
      spec1 (X ∪ x) (Y ∪ y) ++ spec2 x y := by
  intro h' xs ys l
  have hfirst := fut1 h' _ _ (l.first f hC has1 has2 hbs1 hbs2)
  rw [contents_append, contents_append, columns_append, columns_append, l.contents has2',
    l.contents hbs2', hX, hY] at hfirst
  exact List.rel_append hfirst (fut2 h' xs ys (l.second hN has1 has2 hbs1 hbs2))

/-- A list without repeated columns has each column of its set once. -/
theorem count_columns {vars : List TrueVar} {set : Finset Column}
    (hnodup : (vars.map TrueVar.column).Nodup) (hset : columns vars = set) (col : Column) :
    (vars.map TrueVar.column).count col = [set].countP fun s => col ∈ s := by
  rw [List.countP_singleton, ← hset, List.Nodup.count hnodup]
  simp only [decide_eq_true_eq, mem_columns]

/-- The walker's context before a part of the tree: the lists collected so far have the cells `asT`
and `asF`, and the last comparison, if it counts, has the columns `last`. -/
structure Collected (cat : Catalog) (os : Scopes) (last : Option (Finset Column))
    (asT asF : List Nat)
    (c : ContextWalkerSetConstraint) : Prop where
  resolves : c.currentTrueVar.Resolves cat os
  toBeTrue : c.heap.Holds c.listOfNotNullToBeTrue asT
  toBeFalse : c.heap.Holds c.listOfNotNullToBeFalse asF
  disjoint : asT.Disjoint asF
  distinct : ∀ p, c.listOfNotNullToBeTrue = some p → c.listOfNotNullToBeFalse ≠ some p
  inOp : c.ready = true → ∃ cols es, last = some cols ∧ c.heap.Reads c.listOfNotNullInOp es ∧
    columns (c.heap.contents es) = cols

/-- From `c` to `c'` over a part of the tree that adds the cells `bsT` and `bsF` for the sets
`setsT` and `setsF` of its nodes, has the last comparison `last`, and records `spec`. -/
structure Recorded (asT asF : List Nat) (c : ContextWalkerSetConstraint) (bsT bsF : List Nat)
    (setsT setsF : List (Finset Column)) (last : Option (Finset Column))
    (spec : Bool → Finset Column → Finset Column → List (Finset Column))
    (c' : ContextWalkerSetConstraint) : Prop where
  current : c'.currentTrueVar = c.currentTrueVar
  toBeTrue : c'.heap.Holds c'.listOfNotNullToBeTrue (asT ++ bsT)
  toBeFalse : c'.heap.Holds c'.listOfNotNullToBeFalse (asF ++ bsF)
  newTrue : ∀ b ∈ bsT, c.heap.cells.length ≤ b
  newFalse : ∀ b ∈ bsF, c.heap.cells.length ≤ b
  disjoint : bsT.Disjoint bsF
  ptrTrue : ∀ p, c'.listOfNotNullToBeTrue = some p →
    c.listOfNotNullToBeTrue = some p ∨ c.heap.lists.length ≤ p
  ptrFalse : ∀ p, c'.listOfNotNullToBeFalse = some p →
    c.listOfNotNullToBeFalse = some p ∨ c.heap.lists.length ≤ p
  distinct : ∀ p, c'.listOfNotNullToBeTrue = some p → c'.listOfNotNullToBeFalse ≠ some p
  countTrue : ∀ col, ((c'.heap.contents bsT).map TrueVar.column).count col =
    setsT.countP fun set => col ∈ set
  countFalse : ∀ col, ((c'.heap.contents bsF).map TrueVar.column).count col =
    setsF.countP fun set => col ∈ set
  frame : Frame (fun a => bsT ≠ [] ∧ IsLast asT a ∨ bsF ≠ [] ∧ IsLast asF a)
    (fun p => c.listOfNotNullToBeTrue = some p ∨ c.listOfNotNullToBeFalse = some p) c.heap c'.heap
  inOp : last = none ∧ c'.heap = c.heap ∧ c'.listOfNotNullInOp = c.listOfNotNullInOp ∧
      c'.ready = c.ready ∨
    ∃ cols es, last = some cols ∧ c'.ready = true ∧ c'.heap.Reads c'.listOfNotNullInOp es ∧
      columns (c'.heap.contents es) = cols ∧ ∀ e ∈ es, c.heap.cells.length ≤ e
  entriesTrue : ∃ new, c'.listListTrue = c.listListTrue ++ new ∧
    Future c.heap.cells.length c'.heap bsT bsF new (spec true)
  entriesFalse : ∃ new, c'.listListFalse = c.listListFalse ++ new ∧
    Future c.heap.cells.length c'.heap bsT bsF new (spec false)

section

variable {os : Scopes} {last last1 last2 : Option (Finset Column)}
  {asT asF bsT bsF bs1T bs1F bs2T bs2F : List Nat}
  {setsT setsF sets1T sets1F sets2T sets2F : List (Finset Column)}
  {spec spec1 spec2 : Bool → Finset Column → Finset Column → List (Finset Column)}
  {c c1 c2 : ContextWalkerSetConstraint}

/-- The columns that were added are those of the sets. -/
theorem Recorded.columnsTrue (r : Recorded asT asF c bsT bsF setsT setsF last spec c1) :
    columns (c1.heap.contents bsT) = merge true setsT := by
  ext col
  rw [mem_columns, mem_merge_true, ← List.count_pos_iff, r.countTrue, List.countP_pos_iff]
  simp

theorem Recorded.columnsFalse (r : Recorded asT asF c bsT bsF setsT setsF last spec c1) :
    columns (c1.heap.contents bsF) = merge true setsF := by
  ext col
  rw [mem_columns, mem_merge_true, ← List.count_pos_iff, r.countFalse, List.countP_pos_iff]
  simp

/-- A part of the tree that the walker passes without any change. -/
theorem Collected.skip (h : Collected cat os last asT asF c) (hT : ∀ s ∈ setsT, s = ∅)
    (hF : ∀ s ∈ setsF, s = ∅) :
    Recorded asT asF c [] [] setsT setsF none (fun _ _ _ => []) c := by
  have hcount : ∀ sets : List (Finset Column), (∀ s ∈ sets, s = ∅) → ∀ col,
      sets.countP (fun set => col ∈ set) = 0 := by
    intro sets hsets col
    rw [List.countP_eq_zero]
    intro s hs
    simp [hsets s hs]
  exact ⟨rfl, by simpa using h.toBeTrue, by simpa using h.toBeFalse, by simp, by simp, by simp,
    fun _ hp => .inl hp, fun _ hp => .inl hp, h.distinct, fun col =>
      by simp [contents, hcount setsT hT],
    fun col => by simp [contents, hcount setsF hF], Frame.refl _ _ _, .inl ⟨rfl, rfl, rfl, rfl⟩,
    ⟨[], by simp, fun _ _ _ _ => .nil⟩, ⟨[], by simp, fun _ _ _ _ => .nil⟩⟩

/-- Two lists that go on with new cells stay apart. -/
theorem disjoint_append {as bs as' bs' : List Nat} {N : Nat} (hold : as.Disjoint bs)
    (hnew : as'.Disjoint bs') (has : ∀ a ∈ as, a < N) (hbs : ∀ b ∈ bs, b < N)
    (has' : ∀ a ∈ as', N ≤ a) (hbs' : ∀ b ∈ bs', N ≤ b) : (as ++ as').Disjoint (bs ++ bs') := by
  intro a ha hb
  rcases List.mem_append.mp ha with ha | ha <;> rcases List.mem_append.mp hb with hb | hb
  · exact hold ha hb
  · exact absurd (hbs' a hb) (Nat.not_le.mpr (has a ha))
  · exact absurd (has' a ha) (Nat.not_le.mpr (hbs a hb))
  · exact hnew ha hb

/-- The context after a part of the tree is one before the next part. -/
theorem Recorded.collected (h : Collected cat os last asT asF c)
    (r : Recorded asT asF c bsT bsF setsT setsF last1 spec c1) :
    Collected cat os (last1.or last) (asT ++ bsT) (asF ++ bsF) c1 := by
  refine ⟨r.current.symm ▸ h.resolves, r.toBeTrue, r.toBeFalse, ?_, r.distinct, fun hready => ?_⟩
  · exact disjoint_append h.disjoint r.disjoint h.toBeTrue.lt h.toBeFalse.lt r.newTrue r.newFalse
  · rcases r.inOp with ⟨rfl, hheap, hin, hr⟩ | ⟨cols, es, rfl, _, hreads, hcols, _⟩
    · obtain ⟨cols, es, hlast, hreads, hcols⟩ := h.inOp (hr ▸ hready)
      exact ⟨cols, es, hlast, by rw [hheap, hin]; exact hreads, by rw [hheap]; exact hcols⟩
    · exact ⟨cols, es, rfl, hreads, hcols⟩

/-- Two parts of the tree in a row. -/
theorem Recorded.trans (h : Collected cat os last asT asF c)
    (r1 : Recorded asT asF c bs1T bs1F sets1T sets1F last1 spec1 c1)
    (r2 : Recorded (asT ++ bs1T) (asF ++ bs1F) c1 bs2T bs2F sets2T sets2F last2 spec2 c2) :
    Recorded asT asF c (bs1T ++ bs2T) (bs1F ++ bs2F) (sets1T ++ sets2T) (sets1F ++ sets2F)
      (last2.or last1)
      (fun side x y => spec1 side (merge true sets2T ∪ x) (merge true sets2F ∪ y) ++
        spec2 side x y) c2 := by
  have hlt1T : ∀ a ∈ bs1T, a < c1.heap.cells.length := fun a ha =>
    r1.toBeTrue.lt a (List.mem_append_right _ ha)
  have hlt1F : ∀ a ∈ bs1F, a < c1.heap.cells.length := fun a ha =>
    r1.toBeFalse.lt a (List.mem_append_right _ ha)
  have hlt2T : ∀ a ∈ bs2T, a < c2.heap.cells.length := fun a ha =>
    r2.toBeTrue.lt a (List.mem_append_right _ ha)
  have hlt2F : ∀ a ∈ bs2F, a < c2.heap.cells.length := fun a ha =>
    r2.toBeFalse.lt a (List.mem_append_right _ ha)
  have hle : c.heap.cells.length ≤ c1.heap.cells.length := r1.frame.cells_le
  have hC : ∀ a, c.heap.cells.length ≤ a →
      (bs2T ≠ [] ∧ IsLast (asT ++ bs1T) a ∨ bs2F ≠ [] ∧ IsLast (asF ++ bs1F) a) →
      IsLast bs1T a ∨ IsLast bs1F a := by
    rintro a ha (⟨_, hlast⟩ | ⟨_, hlast⟩)
    · exact .inl (Later.isLast_new h.toBeTrue.lt r1.newTrue ha hlast)
    · exact .inr (Later.isLast_new h.toBeFalse.lt r1.newFalse ha hlast)
  have hfuture : ∀ {new1 new2 : List ListPtr} (side : Bool),
      Future c.heap.cells.length c1.heap bs1T bs1F new1 (spec1 side) →
      Future c1.heap.cells.length c2.heap bs2T bs2F new2 (spec2 side) →
      Future c.heap.cells.length c2.heap (bs1T ++ bs2T) (bs1F ++ bs2F) (new1 ++ new2) fun x y =>
        spec1 side (merge true sets2T ∪ x) (merge true sets2F ∪ y) ++ spec2 side x y :=
    fun side f1 f2 => f1.append f2 r2.frame hC hle hlt1T hlt1F r2.newTrue r2.newFalse hlt2T hlt2F
      r2.columnsTrue r2.columnsFalse
  obtain ⟨new1T, hnew1T, fut1T⟩ := r1.entriesTrue
  obtain ⟨new1F, hnew1F, fut1F⟩ := r1.entriesFalse
  obtain ⟨new2T, hnew2T, fut2T⟩ := r2.entriesTrue
  obtain ⟨new2F, hnew2F, fut2F⟩ := r2.entriesFalse
  refine ⟨r2.current.trans r1.current, ?_, ?_, ?_, ?_, ?_, ?_, ?_, r2.distinct, ?_, ?_, ?_, ?_,
    ⟨new1T ++ new2T, by rw [hnew2T, hnew1T, List.append_assoc], hfuture true fut1T fut2T⟩,
    ⟨new1F ++ new2F, by rw [hnew2F, hnew1F, List.append_assoc], hfuture false fut1F fut2F⟩⟩
  · rw [← List.append_assoc]
    exact r2.toBeTrue
  · rw [← List.append_assoc]
    exact r2.toBeFalse
  · exact List.forall_mem_append.mpr ⟨r1.newTrue, fun b hb => hle.trans (r2.newTrue b hb)⟩
  · exact List.forall_mem_append.mpr ⟨r1.newFalse, fun b hb => hle.trans (r2.newFalse b hb)⟩
  · exact disjoint_append r1.disjoint r2.disjoint hlt1T hlt1F r2.newTrue r2.newFalse
  · intro p hp
    rcases r2.ptrTrue p hp with hp | hp
    · exact r1.ptrTrue p hp
    · exact .inr (r1.frame.lists_le.trans hp)
  · intro p hp
    rcases r2.ptrFalse p hp with hp | hp
    · exact r1.ptrFalse p hp
    · exact .inr (r1.frame.lists_le.trans hp)
  · intro col
    rw [contents_append, List.map_append, List.count_append, r2.frame.contents hlt1T, r1.countTrue,
      r2.countTrue, List.countP_append]
  · intro col
    rw [contents_append, List.map_append, List.count_append, r2.frame.contents hlt1F,
      r1.countFalse, r2.countFalse, List.countP_append]
  · refine (r1.frame.mono (fun a _ ha => ?_) fun _ _ hp => hp).trans r2.frame (fun a ha hlast => ?_)
      fun p hp hptr => ?_
    · rcases ha with ⟨hne, ha⟩ | ⟨hne, ha⟩
      · exact .inl ⟨by simp [hne], ha⟩
      · exact .inr ⟨by simp [hne], ha⟩
    -- an old cell that the second part links was the last one before the first part too
    · rcases hlast with ⟨hne, hlast⟩ | ⟨hne, hlast⟩
      · exact .inl ⟨by simp [hne], Later.isLast_old h.toBeTrue.lt r1.newTrue ha hlast⟩
      · exact .inr ⟨by simp [hne], Later.isLast_old h.toBeFalse.lt r1.newFalse ha hlast⟩
    · rcases hptr with hptr | hptr
      · exact .inl ((r1.ptrTrue p hptr).resolve_right (by omega))
      · exact .inr ((r1.ptrFalse p hptr).resolve_right (by omega))
  · rcases r2.inOp with ⟨rfl, hheap, hin, hr⟩ | ⟨cols, es, rfl, hr, hreads, hcols, hes⟩
    · rw [hheap, hin, hr, Option.none_or]
      exact r1.inOp
    · exact .inr ⟨cols, es, rfl, hr, hreads, hcols, fun e he => hle.trans (hes e he)⟩

end

/-! ### Comparisons and null tests -/

/-- From the heap `h` and the list `l` of a comparison, with the cells `es`, to `h'` and `l'` by
appending the columns `cols`, each once. -/
structure Appended (es : List Nat) (h : Heap TrueVar) (l : ListPtr) (new : List Nat)
    (cols : Finset Column) (h' : Heap TrueVar) (l' : ListPtr) : Prop where
  holds : h'.Holds l' (es ++ new)
  fresh : ∀ a ∈ new, h.cells.length ≤ a
  nodup : ((h'.contents (es ++ new)).map TrueVar.column).Nodup
  columns_eq : columns (h'.contents (es ++ new)) = columns (h.contents es) ∪ cols
  ptr : ∀ p, l' = some p → l = some p ∨ h.lists.length ≤ p
  frame : Frame (IsLast es) (fun p => l = some p) h h'

theorem Appended.trans {es new1 new2 : List Nat} {h h1 h2 : Heap TrueVar} {l l1 l2 : ListPtr}
    {cols1 cols2 : Finset Column} (a1 : Appended es h l new1 cols1 h1 l1)
    (a2 : Appended (es ++ new1) h1 l1 new2 cols2 h2 l2) :
    Appended es h l (new1 ++ new2) (cols1 ∪ cols2) h2 l2 := by
  refine ⟨?_, fun a ha => ?_, ?_, ?_, fun p hp => ?_, ?_⟩
  · rw [← List.append_assoc]
    exact a2.holds
  · rcases List.mem_append.mp ha with ha | ha
    · exact a1.fresh a ha
    · exact a1.frame.cells_le.trans (a2.fresh a ha)
  · rw [← List.append_assoc]
    exact a2.nodup
  · rw [← List.append_assoc, a2.columns_eq, a1.columns_eq, Finset.union_assoc]
  · rcases a2.ptr p hp with hp | hp
    · exact a1.ptr p hp
    · exact .inr (a1.frame.lists_le.trans hp)
  · refine a1.frame.trans a2.frame (fun a ha hlast => ?_) fun p hp hptr =>
      (a1.ptr p hptr).resolve_right (by omega)
    by_cases hne : new1 = []
    · rwa [hne, List.append_nil] at hlast
    · rw [isLast_append_right hne] at hlast
      have := a1.fresh a hlast.mem
      omega

section

variable {os : Scopes} {c : ContextWalkerSetConstraint}

theorem myWalker_append {a : Node α} (ha : Operand cat os a)
    (hs : c.currentTrueVar.Resolves cat os) (hready : c.ready = true) {es : List Nat}
    (hl : c.heap.Holds c.listOfNotNullInOp es)
    (hnd : ((c.heap.contents es).map TrueVar.column).Nodup) :
    ∃ heap inOp new, pass.myWalker cat a c = some { c with heap, listOfNotNullInOp := inOp } ∧
      Appended es c.heap c.listOfNotNullInOp new (operandColumn os a).toList.toFinset heap
        inOp := by
  have hsame : ∀ cols, cols ⊆ columns (c.heap.contents es) →
      Appended es c.heap c.listOfNotNullInOp [] cols c.heap c.listOfNotNullInOp := by
    intro cols hcols
    refine ⟨by simpa using hl, by simp, by simpa using hnd, ?_, fun _ hp => .inl hp,
      Frame.refl _ _ _⟩
    rw [List.append_nil, Finset.union_eq_left.mpr hcols]
  cases ha with
  | constant => exact ⟨_, _, _, by simp only [Pass.myWalker], hsame _ (by simp [operandColumn])⟩
  | @column v hv =>
    obtain ⟨t, ht, hcol⟩ := getTrueVar_of_inScope hs hv
    have hany : c.heap.any (fun s => s.varattno == t.varattno && s.vartype == t.vartype)
        c.listOfNotNullInOp = some (isInListTrueVar (c.heap.contents es) t) :=
      any_of_foreach hl.foreach
    rw [Pass.myWalker, if_pos hready]
    simp only [operandColumn, hcol, Option.toList_some, List.toFinset_cons, List.toFinset_nil,
      insert_empty_eq]
    cases hin : isInListTrueVar (c.heap.contents es) t with
    | true =>
      rw [hin] at hany
      refine ⟨_, _, _, by simp [ContextWalkerSetConstraint.addVar, ht, hany], hsame _ ?_⟩
      rw [Finset.singleton_subset_iff, mem_columns]
      exact isInListTrueVar_iff.mp hin
    | false =>
      rw [hin] at hany
      obtain ⟨heap, p, hrun, hholds, hdata, hptr, f⟩ := lappend_spec hl t
      have hold : heap.contents es = c.heap.contents es := f.contents hl.lt
      refine ⟨heap, some p, [c.heap.cells.length],
        by simp [ContextWalkerSetConstraint.addVar, ht, hany, hrun], hholds, by simp, ?_, ?_, ?_, f⟩
      · rw [contents_append, hold, hdata, List.map_append, List.map_singleton]
        refine List.nodup_append.mpr ⟨hnd, by simp, fun col hcol' d hd e => ?_⟩
        rw [List.mem_singleton.mp hd] at e
        rw [e, ← isInListTrueVar_iff, hin] at hcol'
        cases hcol'
      · rw [contents_append, hold, hdata, columns_append]
        rfl
      · rintro q ⟨⟩
        rcases hptr with hp | ⟨_, rfl⟩
        · exact .inl hp
        · exact .inr (Nat.le_refl _)

theorem myWalkerList_append {args : List (Node α)} (hargs : ∀ a ∈ args, Operand cat os a)
    (hs : c.currentTrueVar.Resolves cat os) (hready : c.ready = true) {es : List Nat}
    (hl : c.heap.Holds c.listOfNotNullInOp es)
    (hnd : ((c.heap.contents es).map TrueVar.column).Nodup) :
    ∃ heap inOp new, pass.myWalkerList cat args c =
        some { c with heap, listOfNotNullInOp := inOp } ∧
      Appended es c.heap c.listOfNotNullInOp new (args.filterMap (operandColumn os)).toFinset heap
        inOp := by
  induction args generalizing c es with
  | nil =>
    exact ⟨_, _, [], rfl, by simpa using hl, by simp, by simpa using hnd, by simp,
      fun _ hp => .inl hp, Frame.refl _ _ _⟩
  | cons a args ih =>
    obtain ⟨heap1, inOp1, new1, hrun1, app1⟩ :=
      myWalker_append (hargs a List.mem_cons_self) hs hready hl hnd
    obtain ⟨heap2, inOp2, new2, hrun2, app2⟩ := ih (fun b hb => hargs b (List.mem_cons_of_mem _ hb))
      (c := { c with heap := heap1, listOfNotNullInOp := inOp1 }) hs hready app1.holds app1.nodup
    refine ⟨heap2, inOp2, new1 ++ new2, by simp [Pass.myWalkerList, hrun1, hrun2], ?_⟩
    have hcols : ((a :: args).filterMap (operandColumn os)).toFinset =
        (operandColumn os a).toList.toFinset ∪ (args.filterMap (operandColumn os)).toFinset := by
      cases hop : operandColumn os a <;> simp [hop]
    rw [hcols]
    exact app1.trans app2

/-- The walker on a node, from every context before it. -/
def Records (cat : Catalog) (os : Scopes) (node : Node α) : Prop :=
  ∀ c last asT asF, Collected cat os last asT asF c → covered os last node = true →
    ∃ c' bsT bsF, pass.myWalker cat node c = some c' ∧
      Recorded asT asF c bsT bsF [notNull true os node] [notNull false os node]
        (lastComparison os node) (fun side => entries side os node) c'

theorem records_comparison {opno : Oid} {args : List (Node α)}
    (hargs : ∀ a ∈ args, Operand cat os a) : Records cat os (.opExpr opno args) := by
  intro c last asT asF h _
  obtain ⟨heap1, inOp, new, hrun, app⟩ : ∃ heap1 inOp new,
      pass.myWalkerList cat args { c with ready := true, listOfNotNullInOp := none } =
        some { c with ready := true, heap := heap1, listOfNotNullInOp := inOp } ∧
      Appended [] c.heap none new (args.filterMap (operandColumn os)).toFinset heap1 inOp :=
    myWalkerList_append hargs (c := { c with ready := true, listOfNotNullInOp := none }) h.resolves
      rfl rfl List.nodup_nil
  obtain ⟨hnew, hfresh, hnodup, hcols, hptr, f⟩ := app
  rw [List.nil_append] at hnew hnodup hcols
  have f1 : Frame (fun _ => False) (fun _ => False) c.heap heap1 :=
    f.mono (fun a _ ha => by simp [IsLast] at ha) fun p _ hp => by cases hp
  have hT1 := f1.holds h.toBeTrue (fun _ _ => id) fun _ _ => id
  have hF1 := f1.holds h.toBeFalse (fun _ _ => id) fun _ _ => id
  have hdisj : asT.Disjoint new := fun a hT hn => by
    have := h.toBeTrue.lt a hT
    have := hfresh a hn
    omega
  have hlt : ∀ p, c.listOfNotNullToBeTrue = some p → p < c.heap.lists.length := fun p hp => by
    have hheld := h.toBeTrue
    rw [hp] at hheld
    exact hheld.ptr_lt
  have hltF : ∀ p, c.listOfNotNullToBeFalse = some p → p < c.heap.lists.length := fun p hp => by
    have hheld := h.toBeFalse
    rw [hp] at hheld
    exact hheld.ptr_lt
  have hnewptr : ∀ p, inOp = some p → c.heap.lists.length ≤ p := fun p hp =>
    (hptr p hp).resolve_left (by simp)
  obtain ⟨heap2, hcat, hT2, _, _, f2⟩ := listConcat_spec hT1 hnew hdisj fun p hp hq => by
    have := hlt p hp
    have := hnewptr p hq
    omega
  have hasT : ∀ a ∈ new, ¬(new ≠ [] ∧ IsLast asT a) := fun a ha hlast => hdisj hlast.2.mem ha
  have hdata2 : heap2.contents new = heap1.contents new := f2.contents hnew.lt
  refine ⟨{ c with
      ready := true, heap := heap2, listOfNotNullInOp := inOp
      listOfNotNullToBeTrue := c.listOfNotNullToBeTrue.or inOp }, new, [], ?_, rfl, hT2, ?_, hfresh,
    by simp, by simp, ?_, fun _ hp => .inl hp, ?_, ?_, ?_, ?_, .inr ⟨_, new, rfl, rfl,
      f2.reads hnew.reads hasT, ?_, hfresh⟩, ⟨[], by simp, fun _ _ _ _ => .nil⟩,
    ⟨[], by simp, fun _ _ _ _ => .nil⟩⟩
  · have hop : pass.collects (α := α) opno = true := rfl
    simp [Pass.myWalker, Pass.openOpExpr, hop, hrun, ContextWalkerSetConstraint.closeOpExpr, hcat]
  · rw [List.append_nil]
    exact f2.holds hF1 (fun a ha hlast => h.disjoint hlast.2.mem ha)
      fun p hp hq => h.distinct p hq hp
  · intro p hp
    rcases Option.or_eq_some_iff.mp hp with hp | ⟨_, hp⟩
    · exact .inl hp
    · exact .inr (hnewptr p hp)
  · intro p hp hq
    rcases Option.or_eq_some_iff.mp hp with hp | ⟨_, hp⟩
    · exact h.distinct p hp hq
    · have := hnewptr p hp
      have := hltF p hq
      omega
  · rw [hdata2]
    exact count_columns hnodup (by simpa [contents, columns, notNull] using hcols)
  · intro col
    simp [contents, notNull]
  · exact (f1.mono (fun _ _ ha => ha.elim) fun _ _ hp => hp.elim).trans f2
      (fun a _ ha => .inl ha) fun p _ hp => .inl hp
  · rw [hdata2, hcols]
    simp [contents, columns]

/-- A column of the last comparison adds nothing to its list. -/
theorem Collected.known (P : Pass α) {last : Option (Finset Column)} {asT asF : List Nat}
    (h : Collected cat os last asT asF c) {a : Node α} (ha : Operand cat os a)
    (hknown : (operandColumn os a).all (fun col => last.all fun cols => col ∈ cols) = true) :
    P.myWalker cat a c = some c := by
  cases ha with
  | constant => simp only [Pass.myWalker]
  | @column v hv =>
    by_cases hready : c.ready = true
    · obtain ⟨t, ht, hcol⟩ := getTrueVar_of_inScope h.resolves hv
      obtain ⟨cols, es, rfl, hreads, hcols⟩ := h.inOp hready
      have hmem : t.column ∈ cols := by simpa [operandColumn, hcol] using hknown
      have hany : c.heap.any (fun s => s.varattno == t.varattno && s.vartype == t.vartype)
          c.listOfNotNullInOp = some (isInListTrueVar (c.heap.contents es) t) :=
        any_of_foreach hreads.foreach
      rw [← hcols, mem_columns] at hmem
      rw [isInListTrueVar_iff.mpr hmem] at hany
      simp [Pass.myWalker, hready, ContextWalkerSetConstraint.addVar, ht, hany]
    · rw [Pass.myWalker, if_neg hready]

theorem records_nullTest {test : NullTestType} {arg : Node α} (harg : Operand cat os arg) :
    Records cat os (.nullTest test arg) := by
  intro c last asT asF h hcov
  refine ⟨c, [], [], ?_, h.skip (by simp [notNull]) (by simp [notNull])⟩
  rw [Pass.myWalker]
  exact h.known pass harg hcov

theorem recordsList {nodes : List (Node α)} (hnodes : ∀ a ∈ nodes, Records cat os a)
    {last : Option (Finset Column)} {asT asF : List Nat} (h : Collected cat os last asT asF c)
    (hcov : coveredList os last nodes = true) :
    ∃ c' bsT bsF, pass.myWalkerList cat nodes c = some c' ∧
      Recorded asT asF c bsT bsF (notNullList true os nodes) (notNullList false os nodes)
        (lastComparisonList os nodes) (fun side => entriesList side os nodes) c' := by
  induction nodes generalizing c last asT asF with
  | nil => exact ⟨c, [], [], rfl, h.skip (by simp [notNullList]) (by simp [notNullList])⟩
  | cons a nodes ih =>
    rw [coveredList, Bool.and_eq_true] at hcov
    obtain ⟨c1, bs1T, bs1F, hrun1, r1⟩ := hnodes a List.mem_cons_self c last asT asF h hcov.1
    obtain ⟨c2, bs2T, bs2F, hrun2, r2⟩ := ih (fun b hb => hnodes b (List.mem_cons_of_mem _ hb))
      (r1.collected h) hcov.2
    exact ⟨c2, _, _, by simp [Pass.myWalkerList, hrun1, hrun2], r1.trans h r2⟩

/-! ### Connectives -/

/-- The start of a `BoolExpr`. -/
theorem Collected.open {last : Option (Finset Column)} {asT asF : List Nat}
    (h : Collected cat os last asT asF c) : Collected cat os last [] [] c.openBoolExpr :=
  ⟨h.resolves, rfl, rfl, by simp, fun _ hp => (by cases hp), h.inOp⟩

/-- The end of a `BoolExpr`: new lists `x` and `y` are linked to those collected before the node. -/
theorem Collected.link {last : Option (Finset Column)} {asT asF : List Nat}
    (h : Collected cat os last asT asF c) {h1 : Heap TrueVar}
    (f1 : Frame (fun _ => False) (fun _ => False) c.heap h1) {x y : ListPtr} {xs ys : List Nat}
    (hx : h1.Holds x xs) (hy : h1.Holds y ys) (hxs : ∀ a ∈ xs, c.heap.cells.length ≤ a)
    (hys : ∀ a ∈ ys, c.heap.cells.length ≤ a)
    (hxp : ∀ p, x = some p → c.heap.lists.length ≤ p)
    (hyp : ∀ p, y = some p → c.heap.lists.length ≤ p) (hxy : ∀ p, x = some p → y ≠ some p) :
    ∃ h2 h3, h1.listConcat c.listOfNotNullToBeTrue x = some (h2, c.listOfNotNullToBeTrue.or x) ∧
      h2.listConcat c.listOfNotNullToBeFalse y = some (h3, c.listOfNotNullToBeFalse.or y) ∧
      h3.Holds (c.listOfNotNullToBeTrue.or x) (asT ++ xs) ∧
      h3.Holds (c.listOfNotNullToBeFalse.or y) (asF ++ ys) ∧
      (∀ p, c.listOfNotNullToBeTrue.or x = some p → c.listOfNotNullToBeFalse.or y ≠ some p) ∧
      Frame (fun a => xs ≠ [] ∧ IsLast asT a ∨ ys ≠ [] ∧ IsLast asF a)
        (fun p => c.listOfNotNullToBeTrue = some p ∨ c.listOfNotNullToBeFalse = some p) h1 h3 := by
  have hTlt : ∀ p, c.listOfNotNullToBeTrue = some p → p < c.heap.lists.length := fun p hp =>
    Holds.ptr_lt (hp ▸ h.toBeTrue)
  have hFlt : ∀ p, c.listOfNotNullToBeFalse = some p → p < c.heap.lists.length := fun p hp =>
    Holds.ptr_lt (hp ▸ h.toBeFalse)
  have hold : ∀ {as bs : List Nat} {l : ListPtr}, c.heap.Holds l as →
      (∀ b ∈ bs, c.heap.cells.length ≤ b) → as.Disjoint bs := fun hl hbs a ha hb => by
    have := hl.lt a ha
    have := hbs a hb
    omega
  have hT1 := f1.holds h.toBeTrue (fun _ _ => id) fun _ _ => id
  have hF1 := f1.holds h.toBeFalse (fun _ _ => id) fun _ _ => id
  obtain ⟨h2, hcat2, hT2, _, _, f2⟩ := listConcat_spec hT1 hx (hold h.toBeTrue hxs)
    fun p hp hq => by
    have := hTlt p hp
    have := hxp p hq
    omega
  have hF2 := f2.holds hF1 (fun a ha hlast => h.disjoint hlast.2.mem ha)
    fun p hp hq => h.distinct p hq hp
  have hy2 := f2.holds hy (fun a ha hlast => hold h.toBeTrue hys hlast.2.mem ha) fun p hp hq => by
    have := hTlt p hq
    have := hyp p hp
    omega
  obtain ⟨h3, hcat3, hF3, _, _, f3⟩ := listConcat_spec hF2 hy2 (hold h.toBeFalse hys)
    fun p hp hq => by
      have := hFlt p hp
      have := hyp p hq
      omega
  have hdist : ∀ p, c.listOfNotNullToBeTrue.or x = some p →
      c.listOfNotNullToBeFalse.or y ≠ some p := by
    intro p hp hq
    rcases Option.or_eq_some_iff.mp hp with hp | ⟨_, hp⟩ <;>
      rcases Option.or_eq_some_iff.mp hq with hq | ⟨_, hq⟩
    · exact h.distinct p hp hq
    · have := hTlt p hp
      have := hyp p hq
      omega
    · have := hFlt p hq
      have := hxp p hp
      omega
    · exact hxy p hp hq
  refine ⟨h2, h3, hcat2, hcat3, ?_, hF3, hdist, ?_⟩
  · refine f3.holds hT2 (fun a ha hlast => ?_) fun p hp hq => hdist p hp
      (by rw [hq, Option.some_or])
    rcases List.mem_append.mp ha with ha | ha
    · exact h.disjoint ha hlast.2.mem
    · exact hold h.toBeFalse hxs hlast.2.mem ha
  · exact (f2.mono (fun a _ ha => .inl ha) fun p _ hp => .inl hp).trans f3
      (fun a _ ha => .inr ha) fun p _ hp => .inr hp

theorem listConcat_none {β : Type} (h : Heap β) (l : ListPtr) :
    h.listConcat l none = some (h, l) := by
  cases l <;> rfl

/-- A list linked to an older one has the older header, or a new one. -/
theorem ptr_or {l x : ListPtr} {n : Nat} (hx : ∀ p, x = some p → n ≤ p) (p : Nat)
    (hp : l.or x = some p) : l = some p ∨ n ≤ p := by
  rcases Option.or_eq_some_iff.mp hp with hp | ⟨_, hp⟩
  · exact .inl hp
  · exact .inr (hx p hp)

/-- Walking the arguments of a `BoolExpr` changes nothing that was there before. -/
theorem Recorded.frame_open {bsT bsF : List Nat} {setsT setsF : List (Finset Column)}
    {last : Option (Finset Column)}
    {spec : Bool → Finset Column → Finset Column → List (Finset Column)}
    {c1 : ContextWalkerSetConstraint}
    (r : Recorded [] [] c.openBoolExpr bsT bsF setsT setsF last spec c1) :
    Frame (fun _ => False) (fun _ => False) c.heap c1.heap := by
  refine r.frame.mono (fun a _ ha => ?_) fun p _ hp => ?_
  · rcases ha with ⟨_, ha⟩ | ⟨_, ha⟩ <;> simp [IsLast] at ha
  · rcases hp with hp | hp <;> cases hp

/-- The end of a `BoolExpr`, from what was recorded in its arguments and what is linked to the lists
from before it, with the entries `e` of the node itself. -/
theorem Recorded.close {asT asF b1T b1F xs ys : List Nat} {sets1T sets1F : List (Finset Column)}
    {last1 : Option (Finset Column)}
    {spec1 spec : Bool → Finset Column → Finset Column → List (Finset Column)}
    {c1 : ContextWalkerSetConstraint} {last : Option (Finset Column)}
    (h : Collected cat os last asT asF c)
    (r : Recorded [] [] c.openBoolExpr b1T b1F sets1T sets1F last1 spec1 c1) {h3 : Heap TrueVar}
    {x y : ListPtr} {X Y : Finset Column} (e : Bool → List ListPtr)
    (hT : h3.Holds (c.listOfNotNullToBeTrue.or x) (asT ++ xs))
    (hF : h3.Holds (c.listOfNotNullToBeFalse.or y) (asF ++ ys))
    (hxs : ∀ a ∈ xs, c.heap.cells.length ≤ a) (hys : ∀ a ∈ ys, c.heap.cells.length ≤ a)
    (hdisj : xs.Disjoint ys) (hxp : ∀ p, x = some p → c.heap.lists.length ≤ p)
    (hyp : ∀ p, y = some p → c.heap.lists.length ≤ p)
    (hdist : ∀ p, c.listOfNotNullToBeTrue.or x = some p → c.listOfNotNullToBeFalse.or y ≠ some p)
    (hcountT : ∀ col, ((h3.contents xs).map TrueVar.column).count col =
      [X].countP fun set => col ∈ set)
    (hcountF : ∀ col, ((h3.contents ys).map TrueVar.column).count col =
      [Y].countP fun set => col ∈ set)
    (f : Frame (fun a => xs ≠ [] ∧ IsLast asT a ∨ ys ≠ [] ∧ IsLast asF a)
      (fun p => c.listOfNotNullToBeTrue = some p ∨ c.listOfNotNullToBeFalse = some p) c1.heap h3)
    (hempty : b1T = [] → b1F = [] → h3 = c1.heap)
    (hfut : ∀ side new, Future c.heap.cells.length c1.heap b1T b1F new (spec1 side) →
      Future c.heap.cells.length h3 xs ys (new ++ e side) (spec side)) :
    Recorded asT asF c xs ys [X] [Y] last1 spec { c1 with
      heap := h3
      listOfNotNullToBeTrue := c.listOfNotNullToBeTrue.or x
      listOfNotNullToBeFalse := c.listOfNotNullToBeFalse.or y
      listListTrue := c1.listListTrue ++ e true
      listListFalse := c1.listListFalse ++ e false } := by
  obtain ⟨newT, hnewT, futT⟩ := r.entriesTrue
  obtain ⟨newF, hnewF, futF⟩ := r.entriesFalse
  refine ⟨r.current, hT, hF, hxs, hys, hdisj, ptr_or hxp, ptr_or hyp, hdist, hcountT, hcountF,
    (r.frame_open.mono (fun _ _ ha => ha.elim) fun _ _ hp => hp.elim).trans f (fun _ _ ha => ha)
      fun _ _ hp => hp, ?_,
    ⟨newT ++ e true, by rw [hnewT]; exact List.append_assoc _ _ _, hfut true newT futT⟩,
    ⟨newF ++ e false, by rw [hnewF]; exact List.append_assoc _ _ _, hfut false newF futF⟩⟩
  rcases r.inOp with ⟨rfl, hheap, hin, hr⟩ | ⟨cols, es, rfl, hr, hreads, hcols, hes⟩
  · -- no comparison: nothing was collected, so nothing is linked
    have hnone : ∀ {bs : List Nat} {l : ListPtr}, c1.heap.Holds l bs →
        (∀ b ∈ bs, c.heap.cells.length ≤ b) → bs = [] := by
      intro bs l hl hbs
      refine List.eq_nil_iff_forall_not_mem.mpr fun b hb => ?_
      have hlt := hl.lt b hb
      rw [hheap] at hlt
      exact absurd (hbs b hb) (Nat.not_le.mpr hlt)
    have hnil := hempty (hnone r.toBeTrue r.newTrue) (hnone r.toBeFalse r.newFalse)
    exact .inl ⟨rfl, hnil.trans hheap, hin, hr⟩
  · refine .inr ⟨cols, es, rfl, hr, f.reads hreads fun a ha hC => ?_, ?_, hes⟩
    · rcases hC with ⟨_, hlast⟩ | ⟨_, hlast⟩
      · have hlt := h.toBeTrue.lt a hlast.mem
        exact absurd (hes a ha) (Nat.not_le.mpr hlt)
      · have hlt := h.toBeFalse.lt a hlast.mem
        exact absurd (hes a ha) (Nat.not_le.mpr hlt)
    · exact (congrArg columns (f.contents hreads.lt)).trans hcols

/-- The cells that linking touches are older than the node. -/
theorem Collected.old {last : Option (Finset Column)} {asT asF xs ys : List Nat}
    (h : Collected cat os last asT asF c) (a : Nat)
    (ha : xs ≠ [] ∧ IsLast asT a ∨ ys ≠ [] ∧ IsLast asF a) : a < c.heap.cells.length := by
  rcases ha with ⟨_, hlast⟩ | ⟨_, hlast⟩
  · exact h.toBeTrue.lt a hlast.mem
  · exact h.toBeFalse.lt a hlast.mem

theorem records_not {a : Node α} (ha : Records cat os a) :
    Records cat os (.boolExpr .notExpr [a]) := by
  intro c last asT asF h hcov
  obtain ⟨c1, b1T, b1F, hrun, r⟩ := recordsList (show ∀ b ∈ [a], Records cat os b by simpa using ha)
    h.open (by simpa [covered] using hcov)
  have hptrT : ∀ p, c1.listOfNotNullToBeTrue = some p → c.heap.lists.length ≤ p := fun p hp =>
    (r.ptrTrue p hp).resolve_left fun h => by cases h
  have hptrF : ∀ p, c1.listOfNotNullToBeFalse = some p → c.heap.lists.length ≤ p := fun p hp =>
    (r.ptrFalse p hp).resolve_left fun h => by cases h
  obtain ⟨h2, h3, hcat2, hcat3, hT3, hF3, hdist, f⟩ := h.link r.frame_open r.toBeFalse r.toBeTrue
    r.newFalse r.newTrue hptrF hptrT fun p hp hq => r.distinct p hq hp
  have hTlt := r.toBeTrue.lt
  have hFlt := r.toBeFalse.lt
  rw [List.nil_append] at hTlt hFlt
  refine ⟨_, b1F, b1T, ?_, Recorded.close h r (fun _ => []) hT3 hF3 r.newFalse r.newTrue
    r.disjoint.symm hptrF hptrT hdist ?_ ?_ f ?_ ?_⟩
  · simp [Pass.myWalker, hrun, ContextWalkerSetConstraint.closeNot, hcat2, hcat3]
  · intro col
    have hc : h3.contents b1F = c1.heap.contents b1F := f.contents hFlt
    rw [hc, r.countFalse, notNull_not]
    rfl
  · intro col
    have hc : h3.contents b1T = c1.heap.contents b1T := f.contents hTlt
    rw [hc, r.countTrue, notNull_not]
    rfl
  · intro hT hF
    have hxn : c1.listOfNotNullToBeTrue = none := Holds.eq_none (hT ▸ r.toBeTrue)
    have hyn : c1.listOfNotNullToBeFalse = none := Holds.eq_none (hF ▸ r.toBeFalse)
    rw [hyn, listConcat_none, Option.some.injEq, Prod.mk.injEq] at hcat2
    rw [hxn, listConcat_none, Option.some.injEq, Prod.mk.injEq] at hcat3
    exact (hcat2.1.trans hcat3.1).symm
  · intro side new fut h' us vs l
    rw [List.append_nil]
    exact fut h' vs us (l.swap.before f h.old hTlt hFlt)

theorem contents_eq_nil {β : Type} {h : Heap β} {as : List Nat}
    (has : ∀ a ∈ as, a < h.cells.length) : h.contents as = [] ↔ as = [] := by
  constructor
  · intro hnil
    refine List.eq_nil_iff_forall_not_mem.mpr fun a ha => ?_
    have hlt := has a ha
    have hmem : h.cells[a].data ∈ h.contents as := List.mem_filterMap.mpr ⟨a, ha, by simp [hlt]⟩
    rw [hnil] at hmem
    cases hmem
  · rintro rfl
    rfl

/-- What `union_list` or `inter_list` makes of the columns that the arguments collected. -/
def mergeVars (union : Bool) (nbArg : Nat) (vars : List TrueVar) : List TrueVar :=
  if union then unionList vars else interList vars nbArg

theorem mergeVars_nodup (union : Bool) (nbArg : Nat) (vars : List TrueVar) :
    ((mergeVars union nbArg vars).map TrueVar.column).Nodup := by
  rw [mergeVars]
  split <;> exact keepNew_nodup _ _

theorem columns_mergeVars (union : Bool) {vars : List TrueVar} {sets : List (Finset Column)}
    (hne : sets ≠ []) (hcount : ∀ col, (vars.map TrueVar.column).count col =
      sets.countP fun set => col ∈ set) :
    columns (mergeVars union sets.length vars) = merge union sets := by
  ext col
  rw [mem_columns, mergeVars]
  cases union with
  | true =>
    rw [if_pos rfl, mem_unionList_column, mem_merge_true, ← List.count_pos_iff, hcount,
      List.countP_pos_iff]
    simp
  | false =>
    rw [if_neg Bool.false_ne_true, mem_interList_column, mem_merge_false hne,
      ← List.count_pos_iff, hcount, List.countP_eq_length]
    simp only [decide_eq_true_eq]
    refine and_iff_right_of_imp fun hall => ?_
    have hlen := (List.countP_eq_length (p := fun set => decide (col ∈ set)) (l := sets)).mpr
      (by simpa using hall)
    rw [hlen]
    exact List.length_pos_iff.mpr hne

theorem mergeVars_nil (union : Bool) (nbArg : Nat) : mergeVars union nbArg [] = [] := by
  cases union <;> rfl

theorem closeBoolExpr_eq (isAnd : Bool) (nbArg : Nat) (l m : ListPtr)
    (c : ContextWalkerSetConstraint) :
    c.closeBoolExpr isAnd nbArg l m = (do
      let toBeTrue ← c.heap.foreach c.listOfNotNullToBeTrue
      let (heap, lTrue) ← c.heap.lappendAll none (mergeVars isAnd nbArg toBeTrue)
      let toBeFalse ← heap.foreach c.listOfNotNullToBeFalse
      let (heap, lFalse) ← heap.lappendAll none (mergeVars (!isAnd) nbArg toBeFalse)
      let (heap, listOfNotNullToBeTrue) ← heap.listConcat l lTrue
      let (heap, listOfNotNullToBeFalse) ← heap.listConcat m lFalse
      some { c with
        listListTrue := c.listListTrue ++ [lTrue]
        listListFalse := c.listListFalse ++ [lFalse]
        listOfNotNullToBeTrue, listOfNotNullToBeFalse, heap }) := by
  cases isAnd <;> rfl

/-- A recorded list goes on with what is linked to it, unless it is empty. -/
theorem foreach_later {N : Nat} {h h' : Heap TrueVar} {as bs xs ys : List Nat}
    (l : Later N h as bs xs ys h') {r : ListPtr} (hr : h.Holds r as) {set : Finset Column}
    (hset : columns (h.contents as) = set) :
    ∃ vars, h'.foreach r = some vars ∧ columns vars = extend set (columns (h'.contents xs)) := by
  refine ⟨_, (l.reads hr).foreach, ?_⟩
  by_cases hnil : as = []
  · rw [if_pos hnil, extend, if_pos]
    · rfl
    · rw [← hset, hnil]
      rfl
  · have hne : set ≠ ∅ := by
      rw [← hset, ne_eq, columns_eq_empty, contents_eq_nil hr.lt]
      exact hnil
    rw [if_neg hnil, contents_append, columns_append, l.contents hr.lt, hset, extend, if_neg hne]

/-- From the heap `h` to `h'` by making two lists, one after the other. -/
structure NewLists (h : Heap TrueVar) (us vs : List TrueVar) (l m : ListPtr) (xs ys : List Nat)
    (h' : Heap TrueVar) : Prop where
  left : h'.Holds l xs
  right : h'.Holds m ys
  leftData : h'.contents xs = us
  rightData : h'.contents ys = vs
  leftNew : ∀ a ∈ xs, h.cells.length ≤ a
  rightNew : ∀ a ∈ ys, h.cells.length ≤ a
  disjoint : xs.Disjoint ys
  leftPtr : ∀ p, l = some p → h.lists.length ≤ p
  rightPtr : ∀ p, m = some p → h.lists.length ≤ p
  distinct : ∀ p, l = some p → m ≠ some p
  frame : Frame (fun _ => False) (fun _ => False) h h'

theorem exists_newLists (h : Heap TrueVar) (us vs : List TrueVar) :
    ∃ h1 h2 l m xs ys, h.lappendAll none us = some (h1, l) ∧
      h1.lappendAll none vs = some (h2, m) ∧
      Frame (fun _ => False) (fun _ => False) h h1 ∧ NewLists h us vs l m xs ys h2 := by
  obtain ⟨h1, l, xs, hrun1, hx, hxdata, hxnew, hxptr, f1⟩ := lappendAll_spec (h := h) us
  obtain ⟨h2, m, ys, hrun2, hy, hydata, hynew, hyptr, f2⟩ := lappendAll_spec (h := h1) vs
  refine ⟨h1, h2, l, m, xs, ys, hrun1, hrun2, f1, f2.holds hx (fun _ _ => id) fun _ _ => id, hy,
    (f2.contents hx.lt).trans hxdata, hydata, hxnew, fun a ha => f1.cells_le.trans (hynew a ha),
    fun a ha hb => ?_, hxptr, fun p hp => f1.lists_le.trans (hyptr p hp), fun p hp hq => ?_,
    f1.trans f2 (fun _ _ => id) fun _ _ => id⟩
  · have := hx.lt a ha
    have := hynew a hb
    omega
  · have hlt : p < h1.lists.length := Holds.ptr_lt (hp ▸ hx)
    have := hyptr p hq
    omega

/-- The end of an AND/OR node. -/
theorem Recorded.closeBoolExpr (isAnd : Bool) {asT asF b1T b1F : List Nat}
    {setsT setsF : List (Finset Column)} {last last1 : Option (Finset Column)}
    {spec : Bool → Finset Column → Finset Column → List (Finset Column)}
    {c1 : ContextWalkerSetConstraint} (h : Collected cat os last asT asF c)
    (r : Recorded [] [] c.openBoolExpr b1T b1F setsT setsF last1 spec c1) (hne : setsT ≠ [])
    (hlen : setsF.length = setsT.length) :
    ∃ c2 xs ys, c1.closeBoolExpr isAnd setsT.length c.listOfNotNullToBeTrue
        c.listOfNotNullToBeFalse = some c2 ∧
      Recorded asT asF c xs ys [merge isAnd setsT] [merge (!isAnd) setsF] last1
        (fun side x y => spec side ∅ ∅ ++
          [extend (if side then merge isAnd setsT else merge (!isAnd) setsF)
            (if side then x else y)]) c2 := by
  have hneF : setsF ≠ [] := fun h0 => hne (List.length_eq_zero_iff.mp
    (by simpa [h0] using hlen.symm))
  have hT1 : c1.heap.Holds c1.listOfNotNullToBeTrue b1T := r.toBeTrue
  have hF1 : c1.heap.Holds c1.listOfNotNullToBeFalse b1F := r.toBeFalse
  have hle := r.frame_open.cells_le
  have hlists := r.frame_open.lists_le
  obtain ⟨h2, h3, lTrue, lFalse, xs, ys, hrun2, hrun3, f2, n⟩ := exists_newLists c1.heap
    (mergeVars isAnd setsT.length (c1.heap.contents b1T))
    (mergeVars (!isAnd) setsT.length (c1.heap.contents b1F))
  have hF2 := f2.holds hF1 (fun _ _ => id) fun _ _ => id
  have hFdata : h2.contents b1F = c1.heap.contents b1F := f2.contents hF1.lt
  have hxs : ∀ a ∈ xs, c.heap.cells.length ≤ a := fun a ha => hle.trans (n.leftNew a ha)
  have hys : ∀ a ∈ ys, c.heap.cells.length ≤ a := fun a ha => hle.trans (n.rightNew a ha)
  have hxp : ∀ p, lTrue = some p → c.heap.lists.length ≤ p := fun p hp =>
    hlists.trans (n.leftPtr p hp)
  have hyp : ∀ p, lFalse = some p → c.heap.lists.length ≤ p := fun p hp =>
    hlists.trans (n.rightPtr p hp)
  obtain ⟨h4, h5, hcat4, hcat5, hT5, hF5, hdist, f5⟩ := h.link
    (r.frame_open.trans n.frame (fun _ _ => id) fun _ _ => id) n.left n.right hxs hys hxp hyp
    n.distinct
  have f15 := (n.frame.mono (fun _ _ ha => ha.elim) fun _ _ hp => hp.elim).trans f5
    (fun _ _ ha => ha) fun _ _ hp => hp
  have hkeep : ∀ {l : ListPtr} {zs : List Nat}, h3.Holds l zs →
      (∀ a ∈ zs, c.heap.cells.length ≤ a) → (∀ p, l = some p → c.heap.lists.length ≤ p) →
      h5.Holds l zs := by
    intro l zs hl hzs hptr
    refine f5.holds hl (fun a ha hC => ?_) fun p hp hL => ?_
    · have := h.old a hC
      have := hzs a ha
      omega
    · have hge := hptr p hp
      rcases hL with hL | hL
      · exact absurd (Holds.ptr_lt (hL ▸ h.toBeTrue)) (Nat.not_lt.mpr hge)
      · exact absurd (Holds.ptr_lt (hL ▸ h.toBeFalse)) (Nat.not_lt.mpr hge)
  have hx5 := hkeep n.left hxs hxp
  have hy5 := hkeep n.right hys hyp
  have hxdata5 : h5.contents xs = mergeVars isAnd setsT.length (c1.heap.contents b1T) :=
    (f5.contents n.left.lt).trans n.leftData
  have hydata5 : h5.contents ys = mergeVars (!isAnd) setsT.length (c1.heap.contents b1F) :=
    (f5.contents n.right.lt).trans n.rightData
  have hcolsT : columns (h5.contents xs) = merge isAnd setsT := by
    rw [hxdata5]
    exact columns_mergeVars isAnd hne r.countTrue
  have hcolsF : columns (h5.contents ys) = merge (!isAnd) setsF := by
    rw [hydata5, ← hlen]
    exact columns_mergeVars (!isAnd) hneF r.countFalse
  refine ⟨_, xs, ys, ?_, Recorded.close h r (fun side => [if side then lTrue else lFalse]) hT5 hF5
    hxs hys n.disjoint hxp hyp hdist ?_ ?_ f15 ?_ ?_⟩
  · rw [closeBoolExpr_eq]
    simp [hT1.foreach, hrun2, hF2.foreach, hFdata, hrun3, hcat4, hcat5]
  · refine count_columns ?_ hcolsT
    rw [hxdata5]
    exact mergeVars_nodup _ _ _
  · refine count_columns ?_ hcolsF
    rw [hydata5]
    exact mergeVars_nodup _ _ _
  · intro hT hF
    have hnil : c1.heap.contents [] = [] := rfl
    rw [hT, hnil, mergeVars_nil] at hrun2
    rw [hF, hnil, mergeVars_nil] at hrun3
    cases hrun2
    cases hrun3
    rw [listConcat_none, Option.some.injEq, Prod.mk.injEq] at hcat4 hcat5
    exact (hcat4.1.trans hcat5.1).symm
  · intro side new fut h' us vs l
    have hin := fut h' [] []
      (l.inner f15 h.old n.leftNew n.rightNew hT1 hF1 r.newTrue r.newFalse)
    refine List.rel_append hin (.cons ?_ .nil)
    cases side with
    | true => exact foreach_later l hx5 hcolsT
    | false => exact foreach_later l.swap hy5 hcolsF

theorem records_andOr (isAnd : Bool) {args : List (Node α)} (hne : args ≠ [])
    (hargs : ∀ a ∈ args, Records cat os a) :
    Records cat os (.boolExpr (if isAnd then .andExpr else .orExpr) args) := by
  intro c last asT asF h hcov
  obtain ⟨c1, b1T, b1F, hrun, r⟩ := recordsList hargs h.open hcov
  have hlen : ∀ side, (notNullList side os args).length = args.length := fun side => by
    rw [notNullList_eq_map, List.length_map]
  obtain ⟨c2, xs, ys, hclose, r2⟩ := r.closeBoolExpr isAnd h
    (List.ne_nil_of_length_pos (by rw [hlen]; exact List.length_pos_iff.mpr hne))
    ((hlen false).trans (hlen true).symm)
  rw [hlen] at hclose
  have hempty : args.isEmpty = false := by simpa using hne
  refine ⟨c2, xs, ys, ?_, ?_⟩
  · cases isAnd <;> simp [Pass.myWalker, hempty, hrun, hclose]
  · have hspec : (fun side x y => entriesList side os args ∅ ∅ ++
        [extend (if side then merge isAnd (notNullList true os args)
          else merge (!isAnd) (notNullList false os args)) (if side then x else y)]) =
        fun side => entries side os (.boolExpr (if isAnd then .andExpr else .orExpr) args) := by
      funext side x y
      cases isAnd <;> cases side <;> rfl
    rw [hspec] at r2
    cases isAnd <;> exact r2

/-- Inside a sub-select, the lists are those from outside. -/
theorem Collected.enter {last : Option (Finset Column)} {asT asF : List Nat}
    (h : Collected cat os last asT asF c) (relids : List Oid) (schema : List TrueVar) :
    Collected cat (relids :: os) last asT asF (c.enter cat relids schema) :=
  ⟨h.resolves.enter c.rtes relids, h.toBeTrue, h.toBeFalse, h.disjoint, h.distinct, h.inOp⟩

theorem records_selectFrom {targetList : List (Node α)} {relids : List Oid} {quals : Node α}
    (hquals : Records cat (relids :: os) quals) :
    Records cat os (selectFrom targetList relids quals) := by
  intro c last asT asF h hcov
  obtain ⟨schema, hopen, _⟩ := pass.openQuery_baseTables (α := α) cat relids c
  rw [selectFrom, covered, map_relidOf_baseTable] at hcov
  obtain ⟨c', bsT, bsF, hrun, r⟩ := hquals (c.enter cat relids schema) last asT asF
    (h.enter relids schema) hcov
  refine ⟨{ c' with currentTrueVar := c.currentTrueVar }, bsT, bsF, ?_, ?_⟩
  · simp only [pass.myWalker_selectFrom, hopen, hrun, Option.bind_eq_bind, Option.bind_some]
  · simp only [selectFrom, notNull, lastComparison, entries, map_relidOf_baseTable]
    exact ⟨rfl, r.toBeTrue, r.toBeFalse, r.newTrue, r.newFalse, r.disjoint, r.ptrTrue, r.ptrFalse,
      r.distinct, r.countTrue, r.countFalse, r.frame, r.inOp, r.entriesTrue, r.entriesFalse⟩

/-- The walker records on every condition over comparisons and null tests. -/
theorem records_cond {node : Node α} {freeNot : Prop} (h : Cond (Atom cat) freeNot os node) :
    Records cat os node := by
  induction h with
  | leaf ha =>
    cases ha with
    | comparison hargs => exact records_comparison hargs
    | nullTest harg => exact records_nullTest harg
  | null =>
    exact fun c _ _ _ h _ => ⟨c, [], [], rfl, h.skip (by simp [notNull])
      (by simp [notNull])⟩
  | and hne _ ih => exact records_andOr true hne ih
  | or hne _ ih => exact records_andOr false hne ih
  | not _ _ ih => exact records_not ih
  | exist _ ih =>
    intro c last asT asF h hcov
    obtain ⟨c', bsT, bsF, hrun, r⟩ := records_selectFrom ih c last asT asF h hcov
    exact ⟨c', bsT, bsF, by simpa [existsFrom, Pass.myWalker] using hrun, r⟩

theorem collected_make (cat : Catalog) :
    Collected cat [] none [] [] makeContextWalkerSetConstraint :=
  ⟨trivial, rfl, rfl, by simp, fun _ hp => (by cases hp), fun hr => (by cases hr)⟩

end

end Infed.Codd
