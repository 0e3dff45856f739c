import Infed.Codd.Compare

/-! Null checks and the comparison they belong to.  A comparison that asks for checks and gets none
leaves the flag `ready` set, so that the columns of later comparisons add checks which the next
comparison at negative polarity takes; and arithmetic among the arguments takes checks that are
pending when the mutator leaves it.  Where neither happens, every comparison is copied or joined to
checks of its own columns, and leaves no flag behind. -/

namespace Infed.Codd

variable {α : Type} {cat : Catalog} {os : Scopes}

/-- A comparison is copied or joined by OR to null checks of some of its columns; everything else is
copied. -/
def StaysLocal : Node α → Node α → Prop
  | .opExpr opno args, out => out = .opExpr opno args ∨
    ∃ vars, vars ≠ [] ∧ (∀ v ∈ vars, v ∈ columnsInList args) ∧
      out = .boolExpr .orExpr (vars.map isNull ++ [.opExpr opno args])
  | a, out => out = a

/-- A comparison that asks for checks has a column that is not known, and no arithmetic takes the
checks. -/
def Settles (opno : Oid) (args : List (Node α)) (m : ContextModifier α) : Prop :=
  m.positive = false → opno ∈ weakened →
    (columnsInList args).any (unknown m) = true ∧ settled (unknown m) false args = true

section

variable {c c' : ContextModifier α} {opno : Oid} {args : List (Node α)} {out : Node α}

/-- Where no flag is left over from before. -/
theorem comparison_local_iff (hargs : ∀ a ∈ args, Arith cat os a)
    (hs : c.currentTrueVar.Resolves cat os) (hflags : Neutral c.ready c.constraintToAdd)
    (hrun : pass.myMutator (.opExpr opno args) c = some (out, c')) :
    (StaysLocal (.opExpr opno args) out ∧ Neutral c'.ready c'.constraintToAdd) ↔
      Settles opno args c := by
  obtain ⟨hready, hchecks⟩ := hflags
  by_cases hasks : c.positive = false ∧ opno ∈ weakened
  · obtain ⟨hneg, hop⟩ := hasks
    have hgathers := myMutator_opExpr_gathers opno (fun a ha => (hargs a ha).gathers)
      hargs hs hneg (by simp [hop])
    simp only [append_checksOf_isEmpty] at hgathers
    rw [hchecks, List.isEmpty_nil, Bool.not_true, Bool.false_or, List.nil_append] at hgathers
    have hsettles : Settles opno args c ↔
        (columnsInList args).any (unknown c) = true ∧ settled (unknown c) false args = true :=
      ⟨fun h => h hneg hop, fun h _ _ => h⟩
    rw [hsettles]
    split at hgathers
    · next hsettled =>
      cases hany : (columnsInList args).any (unknown c) with
      | true =>
        rw [hany, Bool.not_true, if_neg Bool.false_ne_true] at hgathers
        cases hgathers.symm.trans hrun
        refine iff_of_true ⟨.inr ⟨(columnsInList args).filter (unknown c), ?_, ?_, rfl⟩, rfl, rfl⟩
          ⟨rfl, hsettled⟩
        · obtain ⟨v, hv, hunknown⟩ := List.any_eq_true.mp hany
          exact List.ne_nil_of_mem (List.mem_filter.mpr ⟨hv, hunknown⟩)
        · exact fun v hv => (List.mem_filter.mp hv).1
      | false =>
        -- no check is pending, and the flag that asked for one stays set
        rw [hany, Bool.not_false, if_pos rfl] at hgathers
        cases hgathers.symm.trans hrun
        exact iff_of_false (fun h => Bool.noConfusion h.2.1) fun h => Bool.noConfusion h.1
    · next hsettled =>
      obtain ⟨outs, hne, hgathers⟩ := hgathers
      cases hgathers.symm.trans hrun
      refine iff_of_false ?_ fun h => hsettled h.2
      rintro ⟨hlocal | ⟨vars, _, _, hor⟩, _⟩
      · exact hne (Node.opExpr.inj hlocal).2
      · cases hor
  · have hop : c.positive = true ∨ opno ∉ weakened := by
      cases hp : c.positive with
      | true => exact .inl rfl
      | false => exact .inr fun hop => hasks ⟨hp, hop⟩
    have hcopied : pass.myMutator (.opExpr opno args) c = some (.opExpr opno args, c) :=
      myMutator_opExpr_copied opno (fun a ha => (hargs a ha).copied hready hchecks) hchecks
        hop
    cases hcopied.symm.trans hrun
    exact ⟨fun _ hneg hop => absurd ⟨hneg, hop⟩ hasks, fun _ => ⟨.inl rfl, hready, hchecks⟩⟩

theorem ArithAtom.neutral {a : Node α} (ha : ArithAtom cat os a) (hatom : isOpExpr a = false)
    (hflags : Neutral c.ready c.constraintToAdd) : pass.myMutator a c = some (a, c) := by
  cases ha with
  | comparison _ => cases hatom
  | nullTest harg => exact myMutator_nullTest (harg.copied hflags.1 hflags.2)

end

/-! ### Whole queries -/

/-- What the mutator makes of each comparison stays local, and it leaves each comparison with its
flags neutral; `q'` is the result of the run on `q` from `c`. -/
def ChecksLocal (q : Node α) (c : ContextModifier α) (q' : Node α) : Prop :=
  ∀ path target, through path q = true → target.isAtom = true → nodeAt path q = some target →
    ∃ m out m', pass.mutatorAt path q c = some (target, m) ∧
      myMutator target m = some (out, m') ∧ nodeAt path q' = some out ∧ StaysLocal target out ∧
      (isOpExpr target = true → Neutral m'.ready m'.constraintToAdd)

section

variable {targetList : List (Node α)} {relids : List Oid} {quals : Node α}
  {c : ContextModifier α}

/-- If each comparison leaves the flags neutral where they are neutral before it, then they are
neutral before each one. -/
theorem fresh_reaches_neutral (hc : Fresh cat (selectFrom targetList relids quals) c)
    (h : Cond (ArithAtom cat) True [relids] quals)
    (hkeeps : ∀ path os opno args m out m',
      through path (selectFrom targetList relids quals) = true →
      pass.mutatorAt path (selectFrom targetList relids quals) c =
        some (.opExpr opno args, m) →
      (∀ a ∈ args, Arith cat os a) → m.currentTrueVar.Resolves cat os →
      Neutral m.ready m.constraintToAdd →
      pass.myMutator (.opExpr opno args) m = some (out, m') →
      Neutral m'.ready m'.constraintToAdd) :
    pass.Reaches Neutral (ArithAtom cat) cat [] (selectFrom targetList relids quals) c := by
  refine (hc.traverses h (fun _ _ ha => ha.isAtom) ⟨rfl, rfl⟩ ?_).2
  intro path target m hthrough _ hm hcomes
  obtain ⟨out, r, ks, hrun, _⟩ := hcomes.atom.asked hcomes.resolves fun _ => hcomes.flags.2
  have hatom := hcomes.atom
  cases hatom with
  | comparison hargs =>
    exact ⟨out, r, ks, hrun, hkeeps path _ _ _ m out _ hthrough hm hargs hcomes.resolves
      hcomes.flags hrun⟩
  | nullTest harg =>
    exact ⟨_, m.ready, m.constraintToAdd, hcomes.atom.neutral rfl hcomes.flags, hcomes.flags⟩

end

/-- The null checks of a query stay local exactly if every comparison at negative polarity with a
listed operator, in the context in which the mutator comes to it, has a column that is not known and
no arithmetic that takes its checks. -/
theorem checks_local_iff (cat : Catalog) (targetList : List (Node α)) (relids : List Oid)
    (quals : Node α) (h : Cond (ArithAtom cat) True [relids] quals) (c : ContextModifier α)
    (hc : Fresh cat (selectFrom targetList relids quals) c) :
    ∃ q' c', myMutator (selectFrom targetList relids quals) c = some (q', c') ∧
      (ChecksLocal (selectFrom targetList relids quals) c q' ↔
        ∀ path opno args m, through path (selectFrom targetList relids quals) = true →
          pass.mutatorAt path (selectFrom targetList relids quals) c =
            some (.opExpr opno args, m) → Settles opno args m) := by
  obtain ⟨⟨q', c', hrun⟩, _⟩ := fresh_returns hc h
  refine ⟨q', c', hrun, fun hlocal => ?_, fun hsettles => ?_⟩
  · -- the flags are neutral before each comparison because they are after those before it
    have hreaches : pass.Reaches Neutral (ArithAtom cat) cat []
        (selectFrom targetList relids quals) c := by
      refine fresh_reaches_neutral hc h fun path _ _ _ m out m' hthrough hm _ _ _ hrun => ?_
      obtain ⟨m1, out1, m1', hm1, hrun1, _, _, hneutral⟩ :=
        hlocal path _ hthrough rfl (Pass.nodeAt_of_mutatorAt hm)
      cases hm.symm.trans hm1
      cases hrun.symm.trans hrun1
      exact hneutral rfl
    intro path opno args m hthrough hm
    have hcomes := hreaches path _ m hthrough rfl hm
    obtain ⟨m1, out, m', hm1, hrun1, _, hstays, hneutral⟩ :=
      hlocal path _ hthrough rfl (Pass.nodeAt_of_mutatorAt hm)
    cases hm.symm.trans hm1
    cases hcomes.atom with
    | comparison hargs =>
      exact (comparison_local_iff hargs hcomes.resolves hcomes.flags hrun1).mp
        ⟨hstays, hneutral rfl⟩
  · have hreaches := fresh_reaches_neutral hc h
      fun path os opno args m out m' hthrough hm hargs hs hflags hrun =>
        ((comparison_local_iff hargs hs hflags hrun).mpr
          (hsettles path opno args m hthrough hm)).2
    intro path target hthrough hatom hpath
    obtain ⟨m, out, m', hm, hrun1, hnode⟩ := Pass.myMutator_at hrun hpath hthrough
    have hcomes := hreaches path target m hthrough hatom hm
    refine ⟨m, out, m', hm, hrun1, hnode, ?_⟩
    cases hcomes.atom with
    | @comparison opno args hargs =>
      have hlocal := (comparison_local_iff hargs hcomes.resolves hcomes.flags hrun1).mpr
        (hsettles path opno args m hthrough hm)
      exact ⟨hlocal.1, fun _ => hlocal.2⟩
    | nullTest harg =>
      cases (hcomes.atom.neutral rfl hcomes.flags).symm.trans hrun1
      exact ⟨rfl, fun hop => Bool.noConfusion hop⟩

/-- `SELECT FROM r WHERE NOT EXISTS (SELECT FROM s WHERE s.a + r.a = 1)`. -/
def sums : Node Int :=
  selectFrom [] [1] (.boolExpr .notExpr [existsFrom [] [2]
    (.opExpr 98 [.opExpr 551 [.var ⟨1, 1, 0⟩, .var ⟨1, 1, 1⟩], .const (some 1)])])

theorem sums_cond : Cond (ArithAtom (Catalog.nullable 1)) True [[1]] sums.quals := by
  have hsum : Arith (α := Int) (Catalog.nullable 1) [[2], [1]]
      (.opExpr 551 [.var ⟨1, 1, 0⟩, .var ⟨1, 1, 1⟩]) := by
    refine .op (by decide) ?_
    simp only [List.forall_mem_cons, List.not_mem_nil, false_imp_iff, implies_true, and_true]
    exact ⟨.column ⟨2, rfl, by decide, by decide⟩, .column ⟨1, rfl, by decide, by decide⟩⟩
  refine .not (.inr rfl) (.exist (.leaf (.comparison ?_)))
  simp only [List.forall_mem_cons, List.not_mem_nil, false_imp_iff, implies_true, and_true]
  exact ⟨hsum, .constant⟩

/-- A context for a query without AND/OR nodes. -/
def withoutSets (q : Node Int) : ContextModifier Int where
  positive := true
  ready := false
  constraintToAdd := []
  trueVars := queryScopes (Catalog.nullable 1) q .root 0
  currentTrueVar := .root
  listOfNotNullInCurrent := []
  listListTrue := []
  listListFalse := []
  whereIAm := 0
  whereIAmQuerry := 0

theorem sums_fresh : Fresh (Catalog.nullable 1) sums (withoutSets sums) :=
  ⟨rfl, rfl, rfl, rfl, rfl, rfl, rfl⟩

theorem checks_local_iff_sums :
    Fresh (Catalog.nullable 1) sums (withoutSets sums) ∧
    ∃ q' c', myMutator sums (withoutSets sums) = some (q', c') ∧
      (ChecksLocal sums (withoutSets sums) q' ↔
        ∀ path opno args m, through path sums = true →
          pass.mutatorAt path sums (withoutSets sums) = some (.opExpr opno args, m) →
          Settles opno args m) :=
  ⟨sums_fresh, checks_local_iff (Catalog.nullable 1) [] [1] _ sums_cond (withoutSets sums)
    sums_fresh⟩

/-- The first column of every table is declared NOT NULL. -/
def firstNotNull : Catalog := ⟨fun _ => 3, fun _ attno => attno == 1⟩

/-- `SELECT FROM r WHERE NOT EXISTS (SELECT FROM s WHERE r.a = 2) OR r.c = 3 OR
NOT EXISTS (SELECT FROM s WHERE s.b = r.b)`. -/
def leaking : Node Int :=
  selectFrom [] [1] (.boolExpr .orExpr [
    .boolExpr .notExpr [existsFrom [] [2] (.opExpr 98 [.var ⟨1, 1, 1⟩, .const (some 2)])],
    .opExpr 98 [.var ⟨1, 3, 0⟩, .const (some 3)],
    .boolExpr .notExpr [existsFrom [] [2] (.opExpr 98 [.var ⟨1, 2, 0⟩, .var ⟨1, 2, 1⟩])]])

/-- The node at a path, and the context in which the mutator comes to it in a whole run. -/
def contextAt (cat : Catalog) (q : Node Int) (path : List Nat) :
    Option (Node Int × ContextModifier Int) := do
  let w ← myWalker cat q makeContextWalkerSetConstraint
  let c ← makeContextModifier true w
  pass.mutatorAt path q c

/-- What the mutator makes of the node at a path, and the context in which it leaves the node. -/
def outcomeAt (cat : Catalog) (q : Node Int) (path : List Nat) :
    Option (Node Int × ContextModifier Int) := do
  let (target, m) ← contextAt cat q path
  myMutator target m

theorem outcomeAt_eq {cat : Catalog} {relids : List Oid} {quals target : Node Int}
    (h : Cond (Atom cat) True [relids] quals) {path : List Nat}
    (hpath : nodeAt path (selectFrom [] relids quals) = some target)
    (hthrough : through path (selectFrom [] relids quals) = true) :
    ∃ w c q' c' m out m',
      myWalker cat (selectFrom [] relids quals) makeContextWalkerSetConstraint = some w ∧
      makeContextModifier true w = some c ∧ Prepared cat (selectFrom [] relids quals) true c ∧
      myMutator (selectFrom [] relids quals) c = some (q', c') ∧
      pass.mutatorAt path (selectFrom [] relids quals) c = some (target, m) ∧
      myMutator target m = some (out, m') ∧
      contextAt cat (selectFrom [] relids quals) path = some (target, m) ∧
      outcomeAt cat (selectFrom [] relids quals) path = some (out, m') := by
  obtain ⟨w, hw, hmake⟩ := pass.prepares [] h
  obtain ⟨c, hc, prep⟩ := hmake true
  obtain ⟨⟨q', c', hrun⟩, _⟩ := fresh_returns prep.fresh
    (h.mono (fun _ _ => ArithAtom.of_atom) id)
  obtain ⟨m, out, m', hm, hrun', _⟩ := Pass.myMutator_at hrun hpath hthrough
  have hcontext : contextAt cat (selectFrom [] relids quals) path = some (target, m) := by
    have hw' : myWalker cat (selectFrom [] relids quals) makeContextWalkerSetConstraint = some w :=
      hw
    simp only [contextAt, hw', hc, hm, Option.bind_eq_bind, Option.bind_some]
  have houtcome : outcomeAt cat (selectFrom [] relids quals) path = some (out, m') := by
    simp only [outcomeAt, hcontext, Option.bind_eq_bind, Option.bind_some]
    exact hrun'
  exact ⟨w, c, q', c', m, out, m', hw, hc, prep, hrun, hm, hrun', hcontext, houtcome⟩

/-- The columns that an OR tests for NULL. -/
def nullTested : Node α → List Var
  | .boolExpr .orExpr args => args.filterMap fun
    | .nullTest .isNull (.var v) => some v
    | _ => none
  | _ => []

theorem StaysLocal.nullTested {opno : Oid} {args : List (Node α)} {out : Node α}
    (h : StaysLocal (.opExpr opno args) out) :
    ∀ v ∈ Codd.nullTested out, v ∈ columnsInList args := by
  rcases h with rfl | ⟨vars, _, hvars, rfl⟩
  · simp [Codd.nullTested]
  · intro v hv
    simp only [Codd.nullTested, List.filterMap_append, List.filterMap_map, List.mem_append,
      List.mem_filterMap, Function.comp, isNull, List.mem_singleton] at hv
    rcases hv with ⟨u, hu, huv⟩ | ⟨a, rfl, ha⟩
    · obtain rfl : u = v := by simpa using huv
      exact hvars u hu
    · simp at ha

/-- The comparison `r.a = 2` finds `r.a` known and leaves `ready` set. -/
theorem outcomeAt_first : (outcomeAt firstNotNull leaking [0, 0, 0, 1, 0]).map (·.2.ready) =
    some true := by
  decide +kernel

/-- The comparison `s.b = r.b` takes the checks that `r.c = 3` has left, twice. -/
theorem outcomeAt_last :
    (outcomeAt firstNotNull leaking [0, 2, 0, 1, 0]).map (fun x => nullTested x.1) =
      some [⟨1, 3, 0⟩, ⟨1, 3, 0⟩, ⟨1, 2, 0⟩, ⟨1, 2, 1⟩] := by
  decide +kernel

theorem leaking_cond : Cond (Atom firstNotNull) True [[1]] leaking.quals := by
  have hcolumn : ∀ os v, (columnOf os v).isSome = true → 1 ≤ v.varattno → v.varattno ≤ 3 →
      Operand firstNotNull os (.var v : Node Int) :=
    fun os v hsome h1 h2 => .column (Var.inScope_of_columnOf hsome h1 fun _ => h2)
  refine .or (by simp) ?_
  simp only [List.forall_mem_cons, List.not_mem_nil, false_imp_iff, implies_true, and_true]
  refine ⟨.not (.inr rfl) (.exist (.leaf (.comparison ?_))), .leaf (.comparison ?_),
    .not (.inr rfl) (.exist (.leaf (.comparison ?_)))⟩ <;>
  · simp only [List.forall_mem_cons, List.not_mem_nil, false_imp_iff, implies_true, and_true]
    constructor <;> first | exact .constant | exact hcolumn _ _ (by decide) (by decide) (by decide)

/-- In `leaking`, `r.a = 2` leaves `ready` set, and the checks of `r.c = 3` are left for the last
sub-select, where they test another column; in `sums`, the sum takes the checks of the
comparison. -/
theorem checks_local_fails :
    (outcomeAt firstNotNull leaking [0, 0, 0, 1, 0]).map (·.2.ready) = some true ∧
    (∃ w c q' c', myWalker firstNotNull leaking makeContextWalkerSetConstraint = some w ∧
      makeContextModifier true w = some c ∧ Fresh firstNotNull leaking c ∧
      myMutator leaking c = some (q', c') ∧ ¬ChecksLocal leaking c q') ∧
    ∃ q' c', myMutator sums (withoutSets sums) = some (q', c') ∧
      ¬ChecksLocal sums (withoutSets sums) q' := by
  refine ⟨outcomeAt_first, ?_, ?_⟩
  · have hpath : nodeAt [0, 2, 0, 1, 0] leaking =
        some (.opExpr 98 [.var ⟨1, 2, 0⟩, .var ⟨1, 2, 1⟩]) := rfl
    obtain ⟨w, c, q', c', m, out, m', hw, hc, prep, hrun, hm, hrun', _, houtcome⟩ :=
      outcomeAt_eq leaking_cond hpath rfl
    have hlast : outcomeAt firstNotNull leaking [0, 2, 0, 1, 0] = some (out, m') := houtcome
    refine ⟨w, c, q', c', hw, hc, prep.fresh, hrun, fun hlocal => ?_⟩
    obtain ⟨m1, out1, m1', hm1, hrun1, _, hstays, _⟩ := hlocal [0, 2, 0, 1, 0] _ rfl rfl rfl
    cases hm.symm.trans hm1
    cases hrun'.symm.trans hrun1
    have htested := outcomeAt_last
    rw [hlast, Option.map_some, Option.some.injEq] at htested
    have hmem : (⟨1, 3, 0⟩ : Var) ∈ nullTested out := by simp [htested]
    have hnot := hstays.nullTested _ hmem
    revert hnot
    decide
  · refine ⟨_, _, rfl, fun hlocal => ?_⟩
    obtain ⟨m, out, m', hm, hrun', _, hstays, _⟩ := hlocal [0, 0, 1, 0] _ rfl rfl rfl
    cases hm
    cases hrun'
    rcases hstays with hcopy | ⟨vars, _, _, hor⟩
    · cases hcopy
    · cases hor

end Infed.Codd
