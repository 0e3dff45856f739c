import Infed.CellSegments
import Infed.Keeps
import Infed.Walk

/-! Which of the sets that `my_walker` records are empty.  An argument of an AND or OR without
another AND or OR in it collects the columns of one comparison at most, for where it is true or for
where it is false.  One set of the node is a union; the other one is made of the columns that occur
as often as there are arguments, which leaves nothing for the union. -/

namespace Infed

open CellList

variable {α : Type} {cat : Catalog} {s : Bool} {c c' : ContextWalkerSetConstraint}

/-- What the walker has collected for where the condition is true, or false. -/
def side (c : ContextWalkerSetConstraint) (s : Bool) : ListPtr :=
  if s then c.listOfNotNullToBeTrue else c.listOfNotNullToBeFalse

/-- One of the recorded sets is NULL. -/
def RecordsNull (c : ContextWalkerSetConstraint) : Prop :=
  none ∈ c.listListTrue ∨ none ∈ c.listListFalse

/-- A NULL that is recorded stays. -/
theorem recordsNull_keeps (P : Pass α) (cat : Catalog) : P.WalkerKeeps cat RecordsNull where
  openBoolExpr _ h := h
  closeNot c c' l m h hclose := by
    simp only [ContextWalkerSetConstraint.closeNot, Option.bind_eq_bind,
      Option.bind_eq_some_iff] at hclose
    obtain ⟨_, _, _, _, hc'⟩ := hclose
    cases hc'
    exact h
  closeBoolExpr c c' isAnd n l m h hclose := by
    simp only [ContextWalkerSetConstraint.closeBoolExpr, Option.bind_eq_bind,
      Option.bind_eq_some_iff] at hclose
    obtain ⟨_, _, _, _, _, _, _, _, _, _, _, _, hc'⟩ := hclose
    cases hc'
    exact h.imp (List.mem_append_left _) (List.mem_append_left _)
  addVar c c' v h hadd := by
    simp only [ContextWalkerSetConstraint.addVar, Option.bind_eq_bind,
      Option.bind_eq_some_iff] at hadd
    obtain ⟨_, _, _, _, hadd⟩ := hadd
    split at hadd
    · cases hadd
      exact h
    · obtain ⟨_, _, hc'⟩ := Option.bind_eq_some_iff.mp hadd
      cases hc'
      exact h
  openOpExpr c opno h := by
    unfold Pass.openOpExpr
    split
    · exact h
    · exact h
  closeOpExpr c c' h hclose := by
    obtain ⟨_, _, hc'⟩ := Option.bind_eq_some_iff.mp hclose
    cases hc'
    exact h
  scope _ _ h := h
  query _ h := h
  addRelation _ _ h := h

/-! ### What an argument does to the lists -/

/-- Columns are appended to a list, each one only if it is not in it yet. -/
inductive Adds : Heap TrueVar → ListPtr → Heap TrueVar → ListPtr → Prop where
  | refl {h l} : Adds h l h l
  | step {h l h1 l1 h2 l2} {v : TrueVar} :
    h.any (fun t => t.varattno == v.varattno && t.vartype == v.vartype) l = some false →
    h.lappend l v = some (h1, l1) → Adds h1 l1 h2 l2 → Adds h l h2 l2

theorem Adds.trans {h h1 h2 : Heap TrueVar} {l l1 l2 : ListPtr} (a : Adds h l h1 l1)
    (b : Adds h1 l1 h2 l2) : Adds h l h2 l2 := by
  induction a with
  | refl => exact b
  | step hany happend _ ih => exact .step hany happend (ih b)

/-- What walking an argument without AND and OR does: it may append to the list of the comparison
before it, or it collects the columns of a comparison of its own and adds them to one side. -/
inductive Effect (c c' : ContextWalkerSetConstraint) : Prop where
  | leaks : Adds c.heap c.listOfNotNullInOp c'.heap c'.listOfNotNullInOp →
    (∀ s, side c' s = side c s) → Effect c c'
  | collects {s : Bool} {h : Heap TrueVar} : Adds c.heap none h c'.listOfNotNullInOp →
    h.listConcat (side c s) c'.listOfNotNullInOp = some (c'.heap, side c' s) →
    side c' (!s) = side c (!s) → Effect c c'

section

variable {P : Pass α} {os : Scopes}

theorem adds_operand {a : Node α} (ha : Operand cat os a) (h : P.myWalker cat a c = some c') :
    ∃ heap inOp, c' = { c with heap, listOfNotNullInOp := inOp } ∧
      Adds c.heap c.listOfNotNullInOp heap inOp := by
  cases ha with
  | constant =>
    cases h
    exact ⟨_, _, rfl, .refl⟩
  | column =>
    rw [Pass.myWalker] at h
    split at h
    · simp only [ContextWalkerSetConstraint.addVar, Option.bind_eq_bind,
        Option.bind_eq_some_iff] at h
      obtain ⟨v, _, isIn, hany, h⟩ := h
      split at h
      · cases h
        exact ⟨_, _, rfl, .refl⟩
      · next hisIn =>
        rw [Bool.not_eq_true] at hisIn
        subst hisIn
        obtain ⟨⟨heap, inOp⟩, happend, h⟩ := Option.bind_eq_some_iff.mp h
        cases h
        exact ⟨_, _, rfl, .step hany happend .refl⟩
    · cases h
      exact ⟨_, _, rfl, .refl⟩

theorem adds_operands {args : List (Node α)} (hargs : ∀ a ∈ args, Operand cat os a)
    (h : P.myWalkerList cat args c = some c') :
    ∃ heap inOp, c' = { c with heap, listOfNotNullInOp := inOp } ∧
      Adds c.heap c.listOfNotNullInOp heap inOp := by
  induction args generalizing c with
  | nil =>
    cases h
    exact ⟨_, _, rfl, .refl⟩
  | cons a args ih =>
    rw [List.forall_mem_cons] at hargs
    rw [Pass.myWalkerList] at h
    obtain ⟨c1, ha, hrest⟩ := Option.bind_eq_some_iff.mp h
    obtain ⟨heap, inOp, rfl, hadds⟩ := adds_operand hargs.1 ha
    obtain ⟨heap', inOp', rfl, hadds'⟩ := ih hargs.2 hrest
    exact ⟨heap', inOp', rfl, hadds.trans hadds'⟩

theorem effect_atom {a : Node α} (ha : Atom cat os a) (h : P.myWalker cat a c = some c') :
    Effect c c' := by
  cases ha with
  | nullTest harg =>
    obtain ⟨heap, inOp, rfl, hadds⟩ := adds_operand harg h
    exact .leaks hadds fun _ => rfl
  | @comparison opno args hargs =>
    rw [Pass.myWalker, Pass.openOpExpr] at h
    obtain ⟨c1, hwalk, hclose⟩ := Option.bind_eq_some_iff.mp h
    by_cases hcollects : P.collects opno = true
    · rw [if_pos hcollects] at hwalk hclose
      obtain ⟨heap, inOp, rfl, hadds⟩ := adds_operands hargs hwalk
      obtain ⟨⟨heap', toBeTrue⟩, hconcat, hc'⟩ := Option.bind_eq_some_iff.mp hclose
      cases hc'
      exact .collects (s := true) hadds hconcat rfl
    · rw [if_neg hcollects] at hwalk hclose
      obtain ⟨heap, inOp, rfl, hadds⟩ := adds_operands hargs hwalk
      cases hclose
      exact .leaks hadds fun _ => rfl

theorem listConcat_null {h h' : Heap TrueVar} {l r : ListPtr}
    (hrun : h.listConcat l none = some (h', r)) : h' = h ∧ r = l := by
  cases l <;> cases hrun <;> exact ⟨rfl, rfl⟩

/-- A NOT exchanges the sides. -/
theorem effect_closeNot {c1 : ContextWalkerSetConstraint} (h : Effect c.openBoolExpr c1)
    (hclose : c1.closeNot c.listOfNotNullToBeTrue c.listOfNotNullToBeFalse = some c') :
    Effect c c' := by
  simp only [ContextWalkerSetConstraint.closeNot, Option.bind_eq_bind,
    Option.bind_eq_some_iff] at hclose
  obtain ⟨⟨h1, r⟩, hconcat, ⟨h2, r'⟩, hconcat', hc'⟩ := hclose
  cases hc'
  cases h with
  | leaks hadds hsides =>
    have htrue : c1.listOfNotNullToBeTrue = none := hsides true
    have hfalse : c1.listOfNotNullToBeFalse = none := hsides false
    rw [hfalse] at hconcat
    rw [htrue] at hconcat'
    obtain ⟨rfl, rfl⟩ := listConcat_null hconcat
    obtain ⟨rfl, rfl⟩ := listConcat_null hconcat'
    exact .leaks hadds fun s => by cases s <;> rfl
  | @collects s h hadds hlink hother =>
    cases s with
    | true =>
      have hfalse : c1.listOfNotNullToBeFalse = none := hother
      have hinner : some (h, c1.listOfNotNullInOp) = some (c1.heap, c1.listOfNotNullToBeTrue) :=
        hlink
      obtain ⟨rfl, htrue⟩ := Prod.mk.inj (Option.some.inj hinner)
      rw [hfalse] at hconcat
      rw [← htrue] at hconcat'
      obtain ⟨rfl, rfl⟩ := listConcat_null hconcat
      exact .collects (s := false) hadds hconcat' rfl
    | false =>
      have htrue : c1.listOfNotNullToBeTrue = none := hother
      have hinner : some (h, c1.listOfNotNullInOp) = some (c1.heap, c1.listOfNotNullToBeFalse) :=
        hlink
      obtain ⟨rfl, hfalse⟩ := Prod.mk.inj (Option.some.inj hinner)
      rw [← hfalse] at hconcat
      rw [htrue] at hconcat'
      obtain ⟨rfl, rfl⟩ := listConcat_null hconcat'
      exact .collects (s := true) hadds hconcat rfl

theorem myWalker_existsFrom (targetList : List (Node α)) (relids : List Oid) (quals : Node α) :
    P.myWalker cat (existsFrom targetList relids quals) c =
      P.myWalker cat (selectFrom targetList relids quals) c := by
  simp [existsFrom, Pass.myWalker]

theorem effect_cond {freeNot : Prop} {a : Node α} (h : Cond (Atom cat) freeNot os a)
    (hcount : boolCount a = 0) {c c' : ContextWalkerSetConstraint}
    (hrun : P.myWalker cat a c = some c') : Effect c c' := by
  induction h generalizing c c' with
  | leaf ha => exact effect_atom ha hrun
  | null =>
    cases hrun
    exact .leaks .refl fun _ => rfl
  | and | or =>
    rw [boolCount_boolExpr (by simp)] at hcount
    exact absurd hcount (Nat.succ_ne_zero _)
  | not _ _ ih =>
    rw [boolCount_not] at hcount
    rw [Pass.myWalker] at hrun
    obtain ⟨c1, hwalk, hclose⟩ := Option.bind_eq_some_iff.mp hrun
    rw [Pass.myWalkerList] at hwalk
    obtain ⟨c2, hwalk, hnil⟩ := Option.bind_eq_some_iff.mp hwalk
    cases hnil
    exact effect_closeNot (ih hcount hwalk) hclose
  | @exist os targetList relids quals _ ih =>
    rw [boolCount_existsFrom] at hcount
    obtain ⟨schema, hopen, _⟩ := P.openQuery_baseTables cat relids c
    rw [myWalker_existsFrom, Pass.myWalker_selectFrom, hopen] at hrun
    simp only [Option.bind_eq_bind, Option.bind_some] at hrun
    obtain ⟨c2, hwalk, hc'⟩ := Option.bind_eq_some_iff.mp hrun
    cases hc'
    have heffect := ih hcount hwalk
    cases heffect with
    | leaks hadds hsides => exact .leaks hadds hsides
    | collects hadds hlink hother => exact .collects hadds hlink hother

end

/-! ### What the arguments together do to the lists -/

theorem gathered_adds {h h' : Heap TrueVar} {lists : Bool → ListPtr} {l l' : ListPtr}
    (a : Adds h l h' l') : ∀ {segs : Bool → List (List Nat)} {is : List Nat} {place : Option Bool},
    Heap.Gathered TrueVar.column h lists l segs is place →
      ∃ segs' is', Heap.Gathered TrueVar.column h' lists l' segs' is' place ∧
        ∀ s, (segs' s).length = (segs s).length := by
  induction a with
  | refl => exact fun g => ⟨_, _, g, fun _ => rfl⟩
  | @step h l h1 l1 h2 l2 v hany happend _ ih =>
    intro segs is place g
    rw [Heap.any_of_foreach g.holds.foreach, Option.some.injEq] at hany
    have hnew : v.column ∉ (h.contents is).map TrueVar.column := by
      rw [← isInListTrueVar_iff, isInListTrueVar, hany]
      exact Bool.false_ne_true
    obtain ⟨segs1, is1, g1, hlen1⟩ := g.lappend hnew happend
    obtain ⟨segs2, is2, g2, hlen2⟩ := ih g1
    exact ⟨segs2, is2, g2, fun s => (hlen2 s).trans (hlen1 s)⟩

/-- The lists of both sides are made of `k` segments at most, or nothing was collected. -/
def Tracked (k : Nat) (c : ContextWalkerSetConstraint) : Prop :=
  (∀ s, side c s = none) ∨ ∃ segs is place,
    Heap.Gathered TrueVar.column c.heap (side c) c.listOfNotNullInOp segs is place ∧
      (segs true).length + (segs false).length ≤ k

theorem Effect.tracked {k : Nat} (h : Effect c c') (hc : Tracked k c) : Tracked (k + 1) c' := by
  cases h with
  | leaks hadds hsides =>
    have hsame : side c' = side c := funext hsides
    rcases hc with hnone | ⟨segs, is, place, g, hlen⟩
    · exact .inl fun s => (hsides s).trans (hnone s)
    · obtain ⟨segs', is', g', hlen'⟩ := gathered_adds hadds g
      refine .inr ⟨segs', is', place, hsame ▸ g', ?_⟩
      rw [hlen', hlen']
      exact Nat.le_succ_of_le hlen
  | @collects s h hadds hlink hother =>
    obtain ⟨segs, g, hlen⟩ : ∃ segs,
        Heap.Gathered TrueVar.column c.heap (side c) none segs [] none ∧
          (segs true).length + (segs false).length ≤ k := by
      rcases hc with hnone | ⟨segs, _, _, g, hlen⟩
      · have hsides : side c = fun _ => none := funext hnone
        exact ⟨fun _ => [], hsides ▸ Heap.Gathered.start _ _, Nat.zero_le _⟩
      · exact ⟨segs, g.renew, hlen⟩
    obtain ⟨segs1, is1, g1, hlen1⟩ := gathered_adds hadds g
    obtain ⟨segs2, place, g2, hlen2, hsame⟩ := g1.listConcat hlink
    have hupdate : Function.update (side c) s (side c' s) = side c' := by
      funext s'
      by_cases hs : s' = s
      · rw [hs, Function.update_self]
      · obtain rfl : s' = !s := by cases s <;> cases s' <;> simp_all
        rw [Function.update_of_ne (by simp), hother]
    refine .inr ⟨segs2, is1, place, hupdate ▸ g2, ?_⟩
    have htrue := hlen1 true
    have hfalse := hlen1 false
    cases s with
    | true =>
      rw [Bool.not_true] at hsame
      rw [hsame]
      omega
    | false =>
      rw [Bool.not_false] at hsame
      rw [hsame]
      omega

theorem tracked_args {P : Pass α} {os : Scopes} {freeNot : Prop} {args : List (Node α)}
    (hargs : ∀ a ∈ args, Cond (Atom cat) freeNot os a) (hcount : ∀ a ∈ args, boolCount a = 0)
    {k : Nat} {c c' : ContextWalkerSetConstraint} (hc : Tracked k c)
    (hrun : P.myWalkerList cat args c = some c') : Tracked (k + args.length) c' := by
  induction args generalizing k c with
  | nil =>
    cases hrun
    exact hc
  | cons a args ih =>
    rw [List.forall_mem_cons] at hargs hcount
    rw [Pass.myWalkerList] at hrun
    obtain ⟨c1, ha, hrest⟩ := Option.bind_eq_some_iff.mp hrun
    have h1 := (effect_cond hargs.1 hcount.1 ha).tracked hc
    rw [List.length_cons, Nat.add_comm args.length, ← Nat.add_assoc]
    exact ih hargs.2 hcount.2 h1 hrest

/-! ### The sets of the node -/

/-- A column that `inter_list` keeps occurs as often as there are arguments. -/
theorem exists_count_of_interList {data : List TrueVar} {n : Nat} (h : interList data n ≠ []) :
    ∃ k, (data.map TrueVar.column).count k = n := by
  obtain ⟨v, hv⟩ := List.exists_mem_of_ne_nil _ h
  have hloop := (keepNew_loop (fun v => data.countP (fun t => v.varattno == t.varattno &&
    v.vartype == t.vartype) == n) data [] List.nodup_nil).2.1 v hv
  obtain ⟨_, htest⟩ := hloop.resolve_left List.not_mem_nil
  refine ⟨v.column, ?_⟩
  rw [List.count, List.countP_map]
  rw [beq_iff_eq] at htest
  rw [← htest]
  refine List.countP_congr fun t _ => ?_
  simp only [Function.comp_apply, TrueVar.column, beq_iff_eq, Bool.and_eq_true, Prod.mk.injEq]
  constructor
  · rintro ⟨htype, hattno⟩
    exact ⟨hattno.symm, htype.symm⟩
  · rintro ⟨hattno, htype⟩
    exact ⟨htype.symm, hattno.symm⟩

theorem data_ne_nil {h h' : Heap TrueVar} {p : Nat} {vs : List TrueVar}
    (hrun : h.lappendAll none vs = some (h', some p)) : vs ≠ [] := by
  rintro rfl
  cases hrun

/-- One side of an AND or OR is a union, and the other one an intersection. -/
theorem sides_of_closeBoolExpr {isAnd : Bool} {n : Nat} {dataT dataF : List TrueVar}
    (hT : (if isAnd then unionList dataT else interList dataT n) ≠ [])
    (hF : (if isAnd then interList dataF n else unionList dataF) ≠ []) :
    ∃ s : Bool, (if s then dataT else dataF) ≠ [] ∧
      ∃ k, ((if s then dataF else dataT).map TrueVar.column).count k = n := by
  cases isAnd with
  | true =>
    refine ⟨true, ?_, exists_count_of_interList hF⟩
    rintro rfl
    exact hT rfl
  | false =>
    refine ⟨false, ?_, exists_count_of_interList hT⟩
    rintro rfl
    exact hF rfl

/-- One of the two sets is empty if the lists have no more segments than there are arguments. -/
theorem Tracked.recordsNull {isAnd : Bool} {n : Nat} {l m : ListPtr} (hc : Tracked n c)
    (hclose : c.closeBoolExpr isAnd n l m = some c') : RecordsNull c' := by
  simp only [ContextWalkerSetConstraint.closeBoolExpr, Option.bind_eq_bind,
    Option.bind_eq_some_iff] at hclose
  obtain ⟨dataT, hdataT, ⟨h1, lTrue⟩, hT, dataF, hdataF, ⟨h2, lFalse⟩, hF, _, _, _, _, hc'⟩ :=
    hclose
  cases hc'
  cases lTrue with
  | none => exact .inl (List.mem_append_right _ List.mem_cons_self)
  | some p =>
    cases lFalse with
    | none => exact .inr (List.mem_append_right _ List.mem_cons_self)
    | some q =>
      exfalso
      obtain ⟨s, hne, k, hcount⟩ := sides_of_closeBoolExpr (data_ne_nil hT) (data_ne_nil hF)
      obtain ⟨_, _, _, hrun, _, _, _, _, f⟩ := Heap.lappendAll_spec (h := c.heap)
        (if isAnd then unionList dataT else interList dataT n)
      obtain ⟨rfl, _⟩ := Prod.mk.inj (Option.some.inj (hT.symm.trans hrun))
      rcases hc with hnone | ⟨segs, is, place, g, hlen⟩
      · rw [show c.listOfNotNullToBeTrue = none from hnone true] at hdataT
        rw [show c.listOfNotNullToBeFalse = none from hnone false] at hdataF
        cases hdataT
        cases hdataF
        exact hne (ite_self _)
      · have hlists : segs s ≠ [] ∧ n ≤ (segs (!s)).length := by
          subst hcount
          cases s with
          | true => exact ⟨g.segs_ne_nil hdataT hne, (g.frame f).count_le false hdataF k⟩
          | false => exact ⟨(g.frame f).segs_ne_nil hdataF hne, g.count_le true hdataT k⟩
        have hpos := List.length_pos_of_ne_nil hlists.1
        cases s <;> grind

/-! ### The whole condition -/

section

variable {P : Pass α} {os : Scopes} {freeNot : Prop}

theorem boolCount_eq_zero_of_mem {args : List (Node α)} (h : boolCountList args = 0) :
    ∀ a ∈ args, boolCount a = 0 := by
  induction args with
  | nil => simp
  | cons a args ih =>
    rw [boolCountList, Nat.add_eq_zero_iff] at h
    exact List.forall_mem_cons.mpr ⟨h.1, ih h.2⟩

theorem myWalkerList_recordsNull {args : List (Node α)}
    (ih : ∀ a ∈ args, boolCount a ≠ 0 → ∀ {c c' : ContextWalkerSetConstraint},
      P.myWalker cat a c = some c' → RecordsNull c')
    (hcount : boolCountList args ≠ 0) {c c' : ContextWalkerSetConstraint}
    (hrun : P.myWalkerList cat args c = some c') : RecordsNull c' := by
  induction args generalizing c with
  | nil => exact absurd rfl hcount
  | cons a args ihargs =>
    rw [List.forall_mem_cons] at ih
    rw [Pass.myWalkerList] at hrun
    obtain ⟨c1, ha, hrest⟩ := Option.bind_eq_some_iff.mp hrun
    by_cases hzero : boolCount a = 0
    · rw [boolCountList, hzero, Nat.zero_add] at hcount
      exact ihargs ih.2 hcount hrest
    · exact (recordsNull_keeps P cat).myWalkerList args c1 c' (ih.1 hzero ha) hrest

/-- An AND or OR: either there is another one in it, or this one records an empty set. -/
theorem myWalker_boolExpr_recordsNull {boolop : BoolExprType} (hop : boolop ≠ .notExpr)
    {args : List (Node α)} (hargs : ∀ a ∈ args, Cond (Atom cat) freeNot os a)
    (ih : ∀ a ∈ args, boolCount a ≠ 0 → ∀ {c c' : ContextWalkerSetConstraint},
      P.myWalker cat a c = some c' → RecordsNull c')
    (hrun : P.myWalker cat (.boolExpr boolop args) c = some c') : RecordsNull c' := by
  rw [Pass.myWalker] at hrun
  split at hrun
  · cases hrun
  · obtain ⟨c1, hwalk, hclose⟩ := Option.bind_eq_some_iff.mp hrun
    by_cases hzero : boolCountList args = 0
    · have hstart : Tracked 0 c.openBoolExpr := .inl fun s => by cases s <;> rfl
      have htracked := tracked_args hargs (boolCount_eq_zero_of_mem hzero) hstart hwalk
      rw [Nat.zero_add] at htracked
      cases boolop with
      | notExpr => exact absurd rfl hop
      | andExpr => exact htracked.recordsNull hclose
      | orExpr => exact htracked.recordsNull hclose
    · have hnull := myWalkerList_recordsNull ih hzero hwalk
      cases boolop with
      | notExpr => exact absurd rfl hop
      | andExpr => exact (recordsNull_keeps P cat).closeBoolExpr _ _ _ _ _ _ hnull hclose
      | orExpr => exact (recordsNull_keeps P cat).closeBoolExpr _ _ _ _ _ _ hnull hclose

theorem myWalker_selectFrom_recordsNull {targetList : List (Node α)} {relids : List Oid}
    {quals : Node α} (hquals : ∀ {c c' : ContextWalkerSetConstraint},
      P.myWalker cat quals c = some c' → RecordsNull c')
    (hrun : P.myWalker cat (selectFrom targetList relids quals) c = some c') : RecordsNull c' := by
  rw [Pass.myWalker_selectFrom] at hrun
  obtain ⟨c1, _, hrun⟩ := Option.bind_eq_some_iff.mp hrun
  obtain ⟨c2, hwalk, hc'⟩ := Option.bind_eq_some_iff.mp hrun
  cases hc'
  have hnull : RecordsNull c2 := hquals hwalk
  exact hnull

/-- Walking a condition with an AND or OR records a NULL. -/
theorem myWalker_recordsNull {a : Node α} (h : Cond (Atom cat) freeNot os a)
    (hcount : boolCount a ≠ 0) {c c' : ContextWalkerSetConstraint}
    (hrun : P.myWalker cat a c = some c') : RecordsNull c' := by
  induction h generalizing c c' with
  | leaf ha =>
    cases ha with
    | comparison => exact absurd rfl hcount
    | nullTest => exact absurd rfl hcount
  | null => exact absurd rfl hcount
  | and _ hargs ih => exact myWalker_boolExpr_recordsNull (by simp) hargs ih hrun
  | or _ hargs ih => exact myWalker_boolExpr_recordsNull (by simp) hargs ih hrun
  | not _ _ ih =>
    rw [boolCount_not] at hcount
    rw [Pass.myWalker] at hrun
    obtain ⟨c1, hwalk, hclose⟩ := Option.bind_eq_some_iff.mp hrun
    rw [Pass.myWalkerList] at hwalk
    obtain ⟨c2, hwalk, hnil⟩ := Option.bind_eq_some_iff.mp hwalk
    cases hnil
    exact (recordsNull_keeps P cat).closeNot _ _ _ _ (ih hcount hwalk) hclose
  | @exist os targetList relids quals _ ih =>
    rw [boolCount_existsFrom] at hcount
    rw [myWalker_existsFrom] at hrun
    exact myWalker_selectFrom_recordsNull (ih hcount) hrun

end

end Infed
