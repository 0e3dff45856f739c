import Infed.Codd.Sets
import Infed.Codd.Weaken

/-! Leaving out redundant null checks.  When `my_mutator` reads the not-null set of each AND/OR
node, it leaves out checks of columns that are known, and the query returns the same rows as with
all checks, unless a sub-select that counts negatively has no rows.  A comparison all of whose
columns are known leaves the flag `ready` set, so that checks of a later comparison at positive
polarity can be left over for one at negative polarity; `flow` follows the flags. -/

namespace Infed.Codd

variable {α : Type} {cat : Catalog} {os : Scopes}

/-! ### The flags -/

/-- The flags between comparisons: no checks are asked for, checks are asked for, or checks may be
left over. -/
inductive Flags where
  | neutral
  | asking
  | leaking
  deriving DecidableEq

def Flags.Of : Flags → Bool → List (Node α) → Prop
  | neutral, ready, checks => ready = false ∧ checks = []
  | asking, ready, checks => ready = true ∧ checks = []
  | leaking, ready, _ => ready = true

/-- The flags after a comparison, with all columns known or not; `none` if it takes checks that are
left over. -/
def Flags.compare (p known : Bool) : Flags → Option Flags
  | neutral => some (if !p && known then asking else neutral)
  | asking => some (if known then asking else if p then leaking else neutral)
  | leaking => if p then some leaking else none

mutual

/-- The flags after a condition at polarity `p`, where `K` is known. -/
def flow : Scopes → Bool → Finset Column → Node α → Flags → Option Flags
  | os, p, K, .opExpr _ args, flags => flags.compare p (args.flatMap (missing os K)).isEmpty
  | os, p, K, .boolExpr .notExpr args, flags => flowList os (!p) K args flags
  | os, p, K, .boolExpr boolop args, flags =>
    flowList os p (K ∪ notNull p os (.boolExpr boolop args)) args flags
  | os, p, K, .subLink _ _ subselect, flags => flow os p K subselect flags
  | os, p, K, .query _ rtable _ quals, flags => flow (rtable.map relidOf :: os) p K quals flags
  | _, _, _, _, flags => some flags

def flowList : Scopes → Bool → Finset Column → List (Node α) → Flags → Option Flags
  | _, _, _, [], flags => some flags
  | os, p, K, node :: nodes, flags => do flowList os p K nodes (← flow os p K node flags)

end

/-! ### The lists that are read -/

/-- At each AND/OR node of the tree, the mutator reads a list of the columns in the node's set. -/
def ReadsSets (os : Scopes) (node : Node α) (c : ContextModifier α) : Prop :=
  ∀ path target m, pass.mutatorAt path node c = some (target, m) → target.isAndOr = true →
    ∃ known, listNth (if m.positive then m.listListTrue else m.listListFalse)
        ((m.listListTrue.length : Int) - m.whereIAm - 1) = some known ∧
      columns known = notNull m.positive (scopesAt path node os) target

theorem ReadsSets.child {node child : Node α} {c c0 ci : ContextModifier α} {i : Nat}
    {outs : List (Node α)} (h : ReadsSets os node c) (hent : pass.enterMutator node c = some c0)
    (hrun : pass.myMutatorList (node.children.take i) c0 = some (outs, ci))
    (hchild : node.children[i]? = some child) : ReadsSets (innerScopes os node) child ci := by
  intro path target m hm hb
  have hpath : pass.mutatorAt (i :: path) node c = some (target, m) := by
    simp [Pass.mutatorAt, hent, hrun, hchild, hm]
  obtain ⟨known, hread, hcols⟩ := h (i :: path) target m hpath hb
  rw [scopesAt, hchild, Option.elim_some] at hcols
  exact ⟨known, hread, hcols⟩

/-- From every context with these flags, in which the mutator will read the sets, it returns the
condition with the missing checks. -/
def Rewrites (cat : Catalog) (os : Scopes) (node : Node α) : Prop :=
  ∀ (c : ContextModifier α) (rte : Nat) (flags flags' : Flags), c.currentTrueVar.Resolves cat os →
    AtPart (fun _ => True) (queryScopes cat node c.currentTrueVar rte) (boolCount node) c →
    ReadsSets os node c → flags.Of c.ready c.constraintToAdd →
    flow os c.positive (columns c.listOfNotNullInCurrent) node flags = some flags' →
    ∃ ready checks, pass.myMutator node c =
        some (weaken os c.positive (columns c.listOfNotNullInCurrent) node, c.advance ready checks
          (queryScopes cat node c.currentTrueVar rte).length (boolCount node)) ∧
      flags'.Of ready checks

theorem operandChecks_eq_missing {a : Node α} (ha : Operand cat os a) {c : ContextModifier α}
    (hs : c.currentTrueVar.Resolves cat os) :
    pass.operandChecks c a = missing os (columns c.listOfNotNullInCurrent) a := by
  cases ha with
  | constant => rfl
  | column hv =>
    obtain ⟨t, ht, hcol⟩ := getTrueVar_of_inScope hs hv
    have hknown : isInListTrueVar c.listOfNotNullInCurrent t =
        decide (t.column ∈ columns c.listOfNotNullInCurrent) := by
      rw [Bool.eq_iff_iff, isInListTrueVar_iff, decide_eq_true_eq, mem_columns]
    simp [Pass.operandChecks, missing, ht, hcol, pass, hknown]

theorem rewrites_comparison {a : Node α} (ha : Comparison cat weakened os a) :
    Rewrites cat os a := by
  intro c rte flags flags' hs _ _ hflags hflow
  cases ha with
  | @mk opno args hop hargs _ =>
  have hmissing : args.flatMap (pass.operandChecks c) =
      args.flatMap (missing os (columns c.listOfNotNullInCurrent)) :=
    List.flatMap_congr fun a ha => operandChecks_eq_missing (hargs a ha) hs
  have hweak : ∀ p, pass.checks (α := α) p opno = !p := fun p => by simp [pass, hop]
  have hconn : ∀ p, pass.connective (α := α) p = if p then none else some .orExpr := fun _ => rfl
  simp only [queryScopes, boolCount, List.length_nil]
  rw [pass.myMutator_opExpr rfl hargs hs, Pass.ownChecks, hmissing, hweak, hconn]
  rw [flow] at hflow
  cases hp : c.positive with
  | true =>
    -- the comparison is copied; checks that `ready` asked for are left over
    have hcopy : weaken os true (columns c.listOfNotNullInCurrent) (.opExpr opno args) =
        .opExpr opno args := rfl
    rw [hcopy]
    rw [hp] at hflow
    generalize args.flatMap (missing os (columns c.listOfNotNullInCurrent)) = own at hflow ⊢
    cases flags with
    | neutral =>
      obtain ⟨hready, hchecks⟩ := hflags
      obtain rfl : Flags.neutral = flags' := by simpa [Flags.compare] using hflow
      exact ⟨false, [], by simp [hready, hchecks], rfl, rfl⟩
    | asking =>
      obtain ⟨hready, hchecks⟩ := hflags
      cases own with
      | nil =>
        obtain rfl : Flags.asking = flags' := by simpa [Flags.compare] using hflow
        exact ⟨true, [], by simp [hready, hchecks], rfl, rfl⟩
      | cons k ks =>
        obtain rfl : Flags.leaking = flags' := by simpa [Flags.compare] using hflow
        exact ⟨true, k :: ks ++ k :: ks, by simp [hready, hchecks], rfl⟩
    | leaking =>
      obtain rfl : Flags.leaking = flags' := by simpa [Flags.compare] using hflow
      have hready : c.ready = true := hflags
      by_cases hempty : (c.constraintToAdd ++ own).isEmpty = true
      · exact ⟨true, [], by simp only [hready, Bool.true_or, if_true, hempty], rfl⟩
      · refine ⟨true, c.constraintToAdd ++ own ++ own, ?_, rfl⟩
        simp only [hready, Bool.true_or, if_true, if_neg hempty]
  | false =>
    rw [weaken]
    rw [hp] at hflow
    generalize args.flatMap (missing os (columns c.listOfNotNullInCurrent)) = own at hflow ⊢
    obtain ⟨hchecks, rfl⟩ : c.constraintToAdd = [] ∧
        flags' = if own.isEmpty then .asking else .neutral := by
      cases flags with
      | neutral => exact ⟨hflags.2, by simpa [Flags.compare] using hflow.symm⟩
      | asking => exact ⟨hflags.2, by simpa [Flags.compare] using hflow.symm⟩
      | leaking => simp [Flags.compare] at hflow
    cases own with
    | nil => exact ⟨true, [], by simp [hchecks], rfl, rfl⟩
    | cons k ks => exact ⟨false, [], by simp [hchecks], rfl, rfl⟩

theorem myMutatorList_rewrites {args : List (Node α)} (hargs : ∀ a ∈ args, Rewrites cat os a)
    {c : ContextModifier α} {rte : Nat} {flags flags' : Flags}
    (hs : c.currentTrueVar.Resolves cat os)
    (hat : AtPart (fun _ => True) (queryScopesList cat args c.currentTrueVar rte)
      (boolCountList args) c)
    (hreads : ∀ i child outs ci, args[i]? = some child →
      pass.myMutatorList (args.take i) c = some (outs, ci) → ReadsSets os child ci)
    (hflags : flags.Of c.ready c.constraintToAdd)
    (hflow : flowList os c.positive (columns c.listOfNotNullInCurrent) args flags = some flags') :
    ∃ ready checks, pass.myMutatorList args c =
        some (weakenList os c.positive (columns c.listOfNotNullInCurrent) args,
          c.advance ready checks (queryScopesList cat args c.currentTrueVar rte).length
            (boolCountList args)) ∧
      flags'.Of ready checks := by
  induction args generalizing c rte flags with
  | nil =>
    cases hflow
    exact ⟨c.ready, c.constraintToAdd, rfl, hflags⟩
  | cons a args ih =>
    obtain ⟨flags1, hflow1, hflow2⟩ := Option.bind_eq_some_iff.mp hflow
    obtain ⟨r1, ks1, hrun1, hflags1⟩ := hargs a List.mem_cons_self c rte flags flags1 hs hat.left
      (hreads 0 a [] c rfl rfl) hflags hflow1
    obtain ⟨r2, ks2, hrun2, hflags2⟩ := ih (fun b hb => hargs b (List.mem_cons_of_mem _ hb))
      (c := c.advance r1 ks1 (queryScopes cat a c.currentTrueVar rte).length (boolCount a)) hs
      (hat.right r1 ks1)
      (fun i child outs ci hchild hrun => hreads (i + 1) child _ ci hchild
        (mutateList_cons hrun1 hrun))
      hflags1 hflow2
    refine ⟨r2, ks2, ?_, hflags2⟩
    rw [Pass.myMutatorList, mutateList_cons hrun1 hrun2, ContextModifier.advance_advance,
      queryScopesList, List.length_append]
    rfl

theorem rewrites_boolExpr {boolop : BoolExprType} (hop : boolop ≠ .notExpr) {args : List (Node α)}
    (hargs : ∀ a ∈ args, Rewrites cat os a) : Rewrites cat os (.boolExpr boolop args) := by
  intro c rte flags flags' hs hat hreads hflags hflow
  have hflow' : flowList os c.positive (columns c.listOfNotNullInCurrent ∪
      notNull c.positive os (.boolExpr boolop args)) args flags = some flags' := by
    cases boolop with
    | notExpr => exact absurd rfl hop
    | andExpr | orExpr => simpa only [flow] using hflow
  obtain ⟨known, hread, hcols⟩ := hreads [] _ c rfl (by
    cases boolop <;> first | rfl | exact absurd rfl hop)
  have hent : pass.enterMutator (.boolExpr boolop args) c = some { c with
      listOfNotNullInCurrent := c.listOfNotNullInCurrent ++ known
      whereIAm := c.whereIAm + 1 } := by
    cases boolop with
    | notExpr => exact absurd rfl hop
    | andExpr | orExpr => simp [Pass.enterMutator, ContextModifier.enterBoolExpr, hread]
  rw [boolCount_boolExpr hop, queryScopes_boolExpr] at hat ⊢
  have hknown : columns (c.listOfNotNullInCurrent ++ known) = columns c.listOfNotNullInCurrent ∪
      notNull c.positive os (.boolExpr boolop args) := by
    rw [columns_append, hcols, scopesAt]
  obtain ⟨r, ks, hrun, hflags'⟩ := myMutatorList_rewrites hargs
    (c := { c with
      listOfNotNullInCurrent := c.listOfNotNullInCurrent ++ known, whereIAm := c.whereIAm + 1 }) hs
    (hat.inBoolExpr known)
    (fun i child outs ci hchild hrun => hreads.child hent hrun hchild) hflags (hknown ▸ hflow')
  refine ⟨r, ks, ?_, hflags'⟩
  rw [weakenList_eq_map, hknown] at hrun
  rw [weaken_boolExpr hop]
  refine pass.myMutator_boolExpr hop ?_ hrun
  cases boolop with
  | notExpr => exact absurd rfl hop
  | andExpr | orExpr => exact hent

theorem rewrites_not {a : Node α} (ha : Rewrites cat os a) :
    Rewrites cat os (.boolExpr .notExpr [a]) := by
  intro c rte flags flags' hs hat hreads hflags hflow
  have hflow' : flow os (!c.positive) (columns c.listOfNotNullInCurrent) a flags = some flags' := by
    simpa [flow, flowList] using hflow
  rw [boolCount_not, queryScopes_not] at hat ⊢
  obtain ⟨r, ks, hrun, hflags'⟩ := ha c.enterNot rte flags flags' hs
    hat.inNot
    (hreads.child (i := 0) rfl rfl rfl) hflags hflow'
  rw [weaken_not]
  exact ⟨r, ks, pass.myMutator_not hrun, hflags'⟩

/-- A query of which the WHERE is rewritten. -/
theorem myMutator_selectFrom_rewrites {targetList : List (Node α)} {relids : List Oid}
    {quals : Node α} (hquals : Rewrites cat (relids :: os) quals) {c : ContextModifier α}
    {scope : Scope} {rte : Nat} {flags flags' : Flags} (hs : scope.Resolves cat os)
    (hat : AtPart (fun _ => True) (queryScopes cat (selectFrom targetList relids quals) scope rte)
      (boolCount quals) c) (hreads : ReadsSets os (selectFrom targetList relids quals) c)
    (hflags : flags.Of c.ready c.constraintToAdd)
    (hflow : flow (relids :: os) c.positive (columns c.listOfNotNullInCurrent) quals flags =
      some flags') :
    ∃ ready checks, pass.myMutator (selectFrom targetList relids quals) c =
        some (selectFrom targetList relids
            (weaken (relids :: os) c.positive (columns c.listOfNotNullInCurrent) quals),
          c.advance ready checks
            (queryScopes cat (selectFrom targetList relids quals) scope rte).length
            (boolCount quals)) ∧
      flags'.Of ready checks := by
  rw [queryScopes_selectFrom] at hat ⊢
  have hent := hat.enterQuery
  have hinner : innerScopes os (selectFrom targetList relids quals) = relids :: os := by
    rw [selectFrom, innerScopes, map_relidOf_baseTable]
  obtain ⟨r, ks, hrun, hflags'⟩ := hquals
    { c with
      currentTrueVar := scope.enter cat rte relids
      whereIAmQuerry := c.whereIAmQuerry + 1 } (rte + relids.length) flags flags'
    (hs.enter rte relids) hat.inQuery
    (hinner ▸ hreads.child (i := 0) hent rfl rfl) hflags hflow
  exact ⟨r, ks, pass.myMutator_query hent hrun, hflags'⟩

/-- The mutator adds the missing checks, and no others, as long as it takes none that are left
over. -/
theorem rewrites {node : Node α} (h : Cond (Comparison cat weakened) False os node) :
    Rewrites cat os node := by
  induction h with
  | leaf ha => exact rewrites_comparison ha
  | null =>
    intro c rte flags flags' _ _ _ hflags hflow
    obtain rfl : flags = flags' := by
      cases hp : c.positive <;> simpa [hp, flow] using hflow
    refine ⟨c.ready, c.constraintToAdd, ?_, hflags⟩
    cases hp : c.positive <;> rfl
  | and _ _ ih => exact rewrites_boolExpr (by simp) ih
  | or _ _ ih => exact rewrites_boolExpr (by simp) ih
  | not _ _ ih => exact rewrites_not ih
  | @exist os targetList relids quals _ ih =>
    intro c rte flags flags' hs hat hreads hflags hflow
    have hflow' : flow (relids :: os) c.positive (columns c.listOfNotNullInCurrent) quals flags =
        some flags' := by
      simpa only [existsFrom, selectFrom, flow, map_relidOf_baseTable] using hflow
    rw [boolCount_existsFrom, queryScopes_subselect] at hat ⊢
    obtain ⟨r, ks, hrun, hflags'⟩ := myMutator_selectFrom_rewrites ih hs hat
      (hreads.child (i := 1) (rfl : pass.enterMutator _ c = some c) rfl rfl) hflags hflow'
    rw [weaken_existsFrom]
    exact ⟨r, ks, pass.myMutator_exists hrun, hflags'⟩

/-! ### Whole queries -/

/-- A context for the query as `make_context_modifier` makes it, with which the mutator reads the
set of each AND/OR node. -/
structure Given (cat : Catalog) (q : Node α) (c : ContextModifier α) : Prop where
  positive : c.positive = true
  ready : c.ready = false
  checks : c.constraintToAdd = []
  trueVars : c.trueVars = queryScopes cat q .root 0
  lengthTrue : c.listListTrue.length = boolCount q
  lengthFalse : c.listListFalse.length = boolCount q
  whereIAm : c.whereIAm = 0
  whereIAmQuerry : c.whereIAmQuerry = 0
  sets : ReadsSets [] q c

/-- The two runs of the mutator, with the sets and with every list emptied. -/
theorem Given.runs {targetList : List (Node α)} {relids : List Oid} {quals : Node α}
    {c : ContextModifier α} (hc : Given cat (selectFrom targetList relids quals) c)
    (h : Cond (Comparison cat weakened) False [relids] quals)
    (hflow : (flow [relids] true (columns c.listOfNotNullInCurrent) quals .neutral).isSome) :
    ∃ c1 c2,
      myMutator (selectFrom targetList relids quals) c = some (selectFrom targetList relids
        (weaken [relids] true (columns c.listOfNotNullInCurrent) quals), c1) ∧
      myMutator (selectFrom targetList relids quals) (emptied c) =
        some (selectFrom targetList relids (translate leaf true quals), c2) := by
  have hat := AtPart.start hc.trueVars hc.lengthTrue hc.lengthFalse hc.whereIAm hc.whereIAmQuerry
  rw [boolCount_selectFrom] at hat
  have hat' : AtPart (· = []) (queryScopes cat (selectFrom targetList relids quals) .root 0)
      (boolCount quals) (emptied c) :=
    ⟨hat.queries, by simpa [emptied] using hat.bools, by simpa [emptied] using hat.lengths,
      by simp [emptied], by simp [emptied]⟩
  obtain ⟨flags', hflow⟩ := Option.isSome_iff_exists.mp hflow
  have hflags : Flags.neutral.Of c.ready c.constraintToAdd := ⟨hc.ready, hc.checks⟩
  obtain ⟨r, ks, hrun, _⟩ := myMutator_selectFrom_rewrites (rewrites h)
    (Scope.resolves_root cat) hat
    hc.sets hflags (by rw [hc.positive]; exact hflow)
  obtain ⟨out, r', ks', hrun', _, hout⟩ := Pass.myMutator_selectFrom
    (Pass.mutates_translate (fun _ _ => mutates_comparison) h) (Scope.resolves_root cat) hat'
    ⟨hc.ready, hc.checks⟩ rfl
  rw [hc.positive] at hrun
  rw [show (emptied c).positive = true from hc.positive] at hout
  exact ⟨_, _, hrun, hout ▸ hrun'⟩

theorem weaken_sameRows {I : Interp α} (hI : ∀ opno ∈ weakened, I.Strict opno) {D : Database α}
    {S : Finset Column} (hS : NeverNull D S) {relids : List Oid} {quals : Node α}
    (h : Cond (Comparison cat weakened) False [relids] quals)
    (hdist : (relids ++ tables quals).Nodup) (hsup : supported D [relids] true quals = true)
    (targetList : List (Node α)) (ρ : Env α) :
    evalQuery I D (selectFrom targetList relids (weaken [relids] true S quals)) ρ =
      evalQuery I D (selectFrom targetList relids (translate leaf true quals)) ρ := by
  simp only [selectFrom, evalQuery, evalRtable_baseTables]
  congr 1
  refine List.filter_congr fun z hz => ?_
  have houter : ρ.Over D [] := fun l _ _ _ hl => by simp at hl
  have hover : (ρ.push z).Over D [relids] := houter.push hz
  have hrow := sameRows hI hS h true S (ρ.push z) hover (by simpa using hdist) hsup
    (fun _ => hS.nonNull hover) fun _ hcol _ => .inr hcol
  rw [countsAs_true, countsAs_true] at hrow
  exact decide_eq_decide.mpr hrow

theorem mapM_columns {heap : CellList.Heap TrueVar} {ls : List CellList.ListPtr}
    {sets : List (Finset Column)} (h : List.Forall₂ (fun l set =>
      ∃ vars, heap.foreach l = some vars ∧ columns vars = set) ls sets) :
    ∃ lists, ls.mapM heap.foreach = some lists ∧ lists.map columns = sets := by
  induction h with
  | nil => exact ⟨[], rfl, rfl⟩
  | cons hl _ ih =>
    obtain ⟨vars, hvars, hcols⟩ := hl
    obtain ⟨lists, hlists, hmap⟩ := ih
    exact ⟨vars :: lists, by simp [hvars, hlists], by simp [hcols, hmap]⟩

/-- What the walker leaves for the mutator is such a context if the two traversals agree on the
numbers of the AND/OR nodes and no later argument adds to a recorded set. -/
theorem given_of_run (targetList : List (Node α)) {relids : List Oid} {quals : Node α}
    (h : Cond (Atom cat) True [relids] quals) (hcov : covered [relids] none quals = true)
    (hchain : chained quals = true) (habs : absorbs [relids] quals ∅ ∅ = true) :
    ∃ w c, myWalker cat (selectFrom targetList relids quals) makeContextWalkerSetConstraint =
      some w ∧
      makeContextModifier true w = some c ∧ Given cat (selectFrom targetList relids quals) c ∧
      ∀ col ∈ columns c.listOfNotNullInCurrent, cat.attnotnull col.1 col.2 = true := by
  obtain ⟨w, hw, hmake⟩ := pass.prepares targetList h
  obtain ⟨c, hc, prep⟩ := hmake true
  obtain ⟨w', hw', hT, hF⟩ := walked_entries targetList h hcov
  obtain rfl : w = w' := Option.some.inj (hw.symm.trans hw')
  rw [(entries_eq_iff_absorbs h ∅ ∅).mpr habs] at hT hF
  obtain ⟨listsT, hlistsT, hmapT⟩ := mapM_columns hT
  obtain ⟨listsF, hlistsF, hmapF⟩ := mapM_columns hF
  obtain ⟨rfl, rfl⟩ : listsT = c.listListTrue ∧ listsF = c.listListFalse := by
    simp only [makeContextModifier, hlistsT, hlistsF, Option.bind_eq_bind, Option.bind_some,
      Option.bind_eq_some_iff] at hc
    obtain ⟨_, _, hc⟩ := hc
    cases hc
    exact ⟨rfl, rfl⟩
  have hlenF : c.listListFalse.length = boolCount (selectFrom targetList relids quals) := by
    rw [boolCount_selectFrom, ← length_ownSets h false, ← hmapF, List.length_map]
  have hvis : Visited cat [] (selectFrom targetList relids quals) := .query h
  have hin : MutatorIn cat (fun _ => True) [] .root 0 (selectFrom targetList relids quals) c :=
    ⟨hvis, trivial, fun hq => (by cases hq), ⟨prep.atStart.queries, prep.atStart.bools,
      prep.atStart.lengths, fun _ _ _ _ => trivial, fun _ _ _ _ => trivial⟩, fun _ _ => trivial⟩
  have hdown : GoesDown (α := α) cat fun _ _ _ _ => True := fun _ _ _ _ _ _ _ _ _ _ => trivial
  have hbalanced : Balanced 0 0 (selectFrom targetList relids quals) := by
    rw [balanced_iff_child quals rfl rfl, balanced_iff h]
    exact ⟨.inr rfl, hchain⟩
  refine ⟨w, c, hw, hc, ⟨prep.positive, prep.ready, prep.checks, prep.trueVars, prep.lengthTrue,
    hlenF, prep.whereIAm, prep.whereIAmQuerry, fun path target m hm hb => ?_⟩,
    fun col hcol => ?_⟩
  swap
  · obtain ⟨t, ht, rfl⟩ := List.mem_map.mp (mem_columns.mp hcol)
    exact prep.schema t ht
  have hpath := Pass.nodeAt_of_mutatorAt hm
  have heq := hbalanced path target hpath hb
  obtain ⟨_, _, _, m', hm', _, _, hposition, hlistT, hlistF⟩ :=
    hin.run (P := pass) (fun _ => rfl) hdown trivial hpath
  cases hm.symm.trans hm'
  have hpos := Node.boolCount_pos hb
  have hidx : (m.listListTrue.length : Int) - m.whereIAm - 1 =
      ((before path (selectFrom targetList relids quals) + boolCount target - 1 : Nat) : Int) := by
    have hlen := prep.lengthTrue
    rw [hlistT]
    rw [prep.whereIAm] at hposition
    omega
  have hown : ∀ side, ownSets side [] (selectFrom targetList relids quals) =
      ownSets side [relids] quals := by
    intro side
    rw [selectFrom, ownSets, map_relidOf_baseTable]
  rw [hidx, listNth_natCast]
  have hat := ownSets_at hvis hpath hb m.positive
  rw [hown] at hat
  cases hp : m.positive with
  | true =>
    rw [hp, ← hmapT, List.getElem?_map, Option.map_eq_some_iff] at hat
    rw [if_pos rfl, hlistT]
    exact hat
  | false =>
    rw [hp, ← hmapF, List.getElem?_map, Option.map_eq_some_iff] at hat
    rw [if_neg Bool.false_ne_true, hlistF]
    exact hat

/-- Without the checks that its not-null lists make redundant, a query returns the same rows as with
all of them, on every database in which the sub-selects that count negatively have the rows they
need, unless a comparison takes checks left over from another. -/
theorem redundant_checks (cat : Catalog) (I : Interp α) (hI : ∀ opno ∈ weakened, I.Strict opno)
    (targetList : List (Node α)) (relids : List Oid) (quals : Node α)
    (h : Cond (Comparison cat weakened) False [relids] quals)
    (hdist : (relids ++ tables quals).Nodup) (c : ContextModifier α)
    (hc : Given cat (selectFrom targetList relids quals) c)
    (hflow : (flow [relids] true (columns c.listOfNotNullInCurrent) quals .neutral).isSome) :
    ∃ q1 c1 q2 c2, myMutator (selectFrom targetList relids quals) c = some (q1, c1) ∧
      myMutator (selectFrom targetList relids quals) (emptied c) = some (q2, c2) ∧
      ∀ (D : Database α) (ρ : Env α), NeverNull D (columns c.listOfNotNullInCurrent) →
        supported D [relids] true quals = true → evalQuery I D q1 ρ = evalQuery I D q2 ρ := by
  obtain ⟨c1, c2, hrun1, hrun2⟩ := hc.runs h hflow
  exact ⟨_, c1, _, c2, hrun1, hrun2, fun D ρ hS hsup =>
    weaken_sameRows hI hS h hdist hsup targetList ρ⟩

/-- `r.a = 1 AND NOT EXISTS (SELECT FROM s WHERE s.a = r.a)`. -/
def unmatched : Node Int :=
  .boolExpr .andExpr [compared 98 ⟨1, 1, 0⟩ 1, .boolExpr .notExpr [existsFrom [] [2] (joined 98)]]

theorem unmatched_cond : Cond (Comparison (Catalog.nullable 1) weakened) False [[1]] unmatched := by
  refine .and (by simp) ?_
  simp only [List.forall_mem_cons, List.not_mem_nil, false_imp_iff, implies_true, and_true]
  exact ⟨.leaf (.compared (by decide) ⟨1, rfl, by decide, by decide⟩ 1),
    .not (.inr rfl) (.exist (.leaf (joined_comparison (by decide) 2 1 (by decide))))⟩

/-- No column is declared NOT NULL, so nothing is known from the schema. -/
theorem neverNull_nullable {n : Nat} {S : Finset Column} (D : Database α)
    (h : ∀ col ∈ S, (Catalog.nullable n).attnotnull col.1 col.2 = true) : NeverNull D S :=
  fun col hcol => absurd (h col hcol) Bool.false_ne_true

/-- For a whole run on `SELECT FROM r WHERE r.a = 1 AND NOT EXISTS (SELECT FROM s WHERE s.a = r.a)`,
where the check of `r.a` is left out. -/
theorem redundant_checks_unmatched :
    ∃ w c q1 c1 q2 c2,
      myWalker (Catalog.nullable 1) (selectFrom [] [1] unmatched) makeContextWalkerSetConstraint =
        some w ∧
      makeContextModifier true w = some c ∧
      myMutator (selectFrom [] [1] unmatched) c = some (q1, c1) ∧
      myMutator (selectFrom [] [1] unmatched) (emptied c) = some (q2, c2) ∧
      evalQuery intInterp (fun relid => if relid = 1 then [[some 1], [none]] else [[some 2]]) q1
          Env.empty =
        evalQuery intInterp (fun relid => if relid = 1 then [[some 1], [none]] else [[some 2]]) q2
          Env.empty := by
  obtain ⟨w, c, hw, hc, hgiven, hschema⟩ := given_of_run []
    (unmatched_cond.mono (fun _ _ => Comparison.atom) fun _ => trivial) (by decide) (by decide)
    (by decide)
  have hflow : ∀ K, (flow [[1]] true K unmatched .neutral).isSome := by
    intro K
    simp [unmatched, flow, flowList, compared, joined, existsFrom, selectFrom, Flags.compare]
  obtain ⟨q1, c1, q2, c2, hrun1, hrun2, hrows⟩ := redundant_checks (Catalog.nullable 1) intInterp
    (fun _ _ => intInterp_strict _) [] [1] unmatched unmatched_cond (by decide) c hgiven (hflow _)
  exact ⟨w, c, q1, c1, q2, c2, hw, hc, hrun1, hrun2,
    hrows _ Env.empty (neverNull_nullable _ hschema) (by decide)⟩

/-- The rows of a query after a whole run, with the recorded lists and with every list emptied. -/
def rowsAfterRun (cat : Catalog) (q : Node Int) (D : Database Int) :
    Option (List (Row Int) × List (Row Int)) := do
  let w ← myWalker cat q makeContextWalkerSetConstraint
  let c ← makeContextModifier true w
  let (q1, _) ← myMutator q c
  let (q2, _) ← myMutator q (emptied c)
  some (evalQuery intInterp D q1 Env.empty, evalQuery intInterp D q2 Env.empty)

/-- `NOT EXISTS (SELECT FROM s WHERE NOT EXISTS (SELECT FROM t WHERE t.a = r.a)) AND
NOT EXISTS (SELECT FROM u WHERE u.a = r.a)`. -/
def divided : Node Int :=
  .boolExpr .andExpr [
    .boolExpr .notExpr [existsFrom [] [2] (.boolExpr .notExpr [existsFrom [] [3]
      (.opExpr 98 [.var ⟨1, 1, 0⟩, .var ⟨1, 1, 2⟩])])],
    .boolExpr .notExpr [existsFrom [] [4] (joined 98)]]

/-- `r.a = 1 AND NOT EXISTS (SELECT FROM s WHERE r.a = 2) AND (r.b = 3 OR r.c = 4) AND
NOT EXISTS (SELECT FROM t WHERE t.a = r.a)`. -/
def leftOver : Node Int :=
  .boolExpr .andExpr [compared 98 ⟨1, 1, 0⟩ 1,
    .boolExpr .notExpr [existsFrom [] [2] (compared 98 ⟨1, 1, 1⟩ 2)],
    .boolExpr .orExpr [compared 98 ⟨1, 2, 0⟩ 3, compared 98 ⟨1, 3, 0⟩ 4],
    .boolExpr .notExpr [existsFrom [] [3] (joined 98)]]

/-- The rows of `s` and `t` are none, `r.a` is NULL, and `u.a` is 5. -/
def dividedRows : Database Int := fun relid =>
  if relid = 1 then [[none]] else if relid = 4 then [[some 5]] else []

def leftOverRows : Database Int := fun relid =>
  if relid = 1 then [[some 1, some 3, some 4]]
  else if relid = 2 then [[some 0, some 0, some 0]] else [[some 5, none, some 0]]

theorem rowsAfterRun_divided :
    rowsAfterRun (Catalog.nullable 1) (selectFrom [] [1] divided) dividedRows =
      some ([[]], []) := by
  decide +kernel

theorem rowsAfterRun_leftOver :
    rowsAfterRun (Catalog.nullable 3) (selectFrom [] [1] leftOver) leftOverRows =
      some ([], [[]]) := by
  decide +kernel

/-- The mutator reads the right sets in a whole run on the query, whose tables are distinct, and the
query returns other rows than with every list emptied. -/
def ReturnsOther (cat : Catalog) (relid : Oid) (quals : Node Int) (D : Database Int) : Prop :=
  ∃ w c q1 c1 q2 c2,
    myWalker cat (selectFrom [] [relid] quals) makeContextWalkerSetConstraint = some w ∧
    makeContextModifier true w = some c ∧ Given cat (selectFrom [] [relid] quals) c ∧
    ([relid] ++ tables quals).Nodup ∧ NeverNull D (columns c.listOfNotNullInCurrent) ∧
    myMutator (selectFrom [] [relid] quals) c = some (q1, c1) ∧
    myMutator (selectFrom [] [relid] quals) (emptied c) = some (q2, c2) ∧
    evalQuery intInterp D q1 Env.empty ≠ evalQuery intInterp D q2 Env.empty

theorem returnsOther_of_rowsAfterRun {n : Nat} {relid : Oid} {quals : Node Int} {D : Database Int}
    (h : Cond (Comparison (Catalog.nullable n) weakened) False [[relid]] quals)
    (hcov : covered [[relid]] none quals = true) (hchain : chained quals = true)
    (habs : absorbs [[relid]] quals ∅ ∅ = true) (hdist : ([relid] ++ tables quals).Nodup)
    {rows rows' : List (Row Int)}
    (hrows : rowsAfterRun (Catalog.nullable n) (selectFrom [] [relid] quals) D = some (rows, rows'))
    (hne : rows ≠ rows') : ReturnsOther (Catalog.nullable n) relid quals D := by
  obtain ⟨w, c, hw, hc, hgiven, hschema⟩ := given_of_run []
    (h.mono (fun _ _ => Comparison.atom) fun _ => trivial) hcov hchain habs
  simp only [rowsAfterRun, hw, hc, Option.bind_eq_bind, Option.bind_some, Option.bind_eq_some_iff,
    Option.some.injEq, Prod.mk.injEq] at hrows
  obtain ⟨⟨q1, c1⟩, hrun1, ⟨q2, c2⟩, hrun2, rfl, rfl⟩ := hrows
  exact ⟨w, c, q1, c1, q2, c2, hw, hc, hgiven, hdist, neverNull_nullable D hschema, hrun1,
    hrun2, hne⟩

theorem divided_cond : Cond (Comparison (Catalog.nullable 1) weakened) False [[1]] divided := by
  have hinner : Comparison (α := Int) (Catalog.nullable 1) weakened [[3], [2], [1]]
      (.opExpr 98 [.var ⟨1, 1, 0⟩, .var ⟨1, 1, 2⟩]) := by
    refine .mk (by decide) ?_ ⟨_, List.mem_cons_self⟩
    simp only [List.forall_mem_cons, List.not_mem_nil, false_imp_iff, implies_true, and_true]
    exact ⟨.column ⟨3, rfl, by decide, by decide⟩, .column ⟨1, rfl, by decide, by decide⟩⟩
  refine .and (by simp) ?_
  simp only [List.forall_mem_cons, List.not_mem_nil, false_imp_iff, implies_true, and_true]
  exact ⟨.not (.inr rfl) (.exist (.not (.inr rfl) (.exist (.leaf hinner)))),
    .not (.inr rfl) (.exist (.leaf (joined_comparison (by decide) 4 1 (by decide))))⟩

theorem leftOver_cond : Cond (Comparison (Catalog.nullable 3) weakened) False [[1]] leftOver := by
  refine .and (by simp) ?_
  simp only [List.forall_mem_cons, List.not_mem_nil, false_imp_iff, implies_true, and_true]
  refine ⟨.leaf (.compared (by decide) ⟨1, rfl, by decide, by decide⟩ 1),
    .not (.inr rfl) (.exist (.leaf (.compared (by decide) ⟨1, rfl, by decide, by decide⟩ 2))),
    .or (by simp) ?_,
    .not (.inr rfl) (.exist (.leaf (joined_comparison (by decide) 3 1 (by decide))))⟩
  simp only [List.forall_mem_cons, List.not_mem_nil, false_imp_iff, implies_true, and_true]
  exact ⟨.leaf (.compared (by decide) ⟨1, rfl, by decide, by decide⟩ 3),
    .leaf (.compared (by decide) ⟨1, rfl, by decide, by decide⟩ 4)⟩

/-- In `divided` the check of `r.a` in the last sub-select is left out for what the first one would
show if `s` had a row; in `leftOver` the checks of the OR are left over for the last sub-select. -/
theorem redundant_checks_fails :
    ReturnsOther (Catalog.nullable 1) 1 divided dividedRows ∧
      ReturnsOther (Catalog.nullable 3) 1 leftOver leftOverRows :=
  ⟨returnsOther_of_rowsAfterRun divided_cond (by decide) (by decide) (by decide) (by decide)
      rowsAfterRun_divided (by decide),
    returnsOther_of_rowsAfterRun leftOver_cond (by decide) (by decide) (by decide) (by decide)
      rowsAfterRun_leftOver (by decide)⟩

end Infed.Codd
