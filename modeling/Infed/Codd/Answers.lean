import Infed.Answers
import Infed.Codd.Redundant
import Infed.TargetList

/-! The answers of a whole run.  The walker records the columns that the schema declares NOT NULL,
of every table of the query, and the sets of the AND/OR nodes; the mutator leaves out the null
checks that these make redundant; and the rewritten query returns certain answers only: whatever the
NULLs stand for, each row that it returns stands for a row of the original query. -/

namespace Infed

open ContextWalkerSetConstraint

variable {α : Type} {cat : Catalog}

/-! ### The columns declared NOT NULL -/

mutual

/-- The relations that the walker looks up in the catalog, in the order in which it does. -/
def Pass.relations (P : Pass α) : Node α → List Oid
  | .boolExpr _ args => P.relationsList args
  | .opExpr _ args => P.relationsList args
  | .query _ rtable _ quals => P.relationsList rtable ++ P.relations quals
  | .rangeTblEntry .rteSubquery relid (.query _ rtable _ _) =>
    if P.entersSubquery then P.relationsList rtable else [relid]
  | .rangeTblEntry _ relid _ => [relid]
  | .nullTest _ arg => P.relations arg
  | .subLink _ testexpr subselect => P.relations testexpr ++ P.relations subselect
  | .targetEntry expr _ => P.relations expr
  | .list elems => P.relationsList elems
  | _ => []

def Pass.relationsList (P : Pass α) : List (Node α) → List Oid
  | [] => []
  | node :: nodes => P.relations node ++ P.relationsList nodes

end

/-- The columns of the relations that are declared NOT NULL. -/
def schema (cat : Catalog) (relids : List Oid) : List Column :=
  relids.flatMap fun relid =>
    ((List.range' 1 (cat.relnatts relid)).filter (cat.attnotnull relid)).map (relid, ·)

theorem schema_append (relids relids' : List Oid) :
    schema cat (relids ++ relids') = schema cat relids ++ schema cat relids' :=
  List.flatMap_append

theorem mem_schema {relids : List Oid} {col : Column} (h : col ∈ schema cat relids) :
    cat.attnotnull col.1 col.2 = true := by
  obtain ⟨relid, _, hcol⟩ := List.mem_flatMap.mp h
  obtain ⟨attno, hattno, rfl⟩ := List.mem_map.mp hcol
  exact (List.mem_filter.mp hattno).2

/-- Between two contexts of the walker, the NOT NULL columns of `relids` are recorded. -/
def Declares (cat : Catalog) (relids : List Oid) (c c' : ContextWalkerSetConstraint) : Prop :=
  c'.listOfNotNullAttSchem.map TrueVar.column =
    c.listOfNotNullAttSchem.map TrueVar.column ++ schema cat relids

section

variable {c c' c'' : ContextWalkerSetConstraint} {relids relids' : List Oid}

theorem declares_nil (h : c'.listOfNotNullAttSchem = c.listOfNotNullAttSchem) :
    Declares cat [] c c' := by
  simp [Declares, h, schema]

theorem Declares.trans (h : Declares cat relids c c') (h' : Declares cat relids' c' c'') :
    Declares cat (relids ++ relids') c c'' := by
  rw [Declares] at h h' ⊢
  rw [h', h, schema_append, List.append_assoc]

theorem Declares.before (h : Declares cat relids c c')
    (hsame : c.listOfNotNullAttSchem = c''.listOfNotNullAttSchem) : Declares cat relids c'' c' := by
  rwa [Declares, ← hsame]

theorem Declares.after (h : Declares cat relids c c')
    (hsame : c''.listOfNotNullAttSchem = c'.listOfNotNullAttSchem) : Declares cat relids c c'' := by
  rwa [Declares, hsame]

theorem declares_addRelation (relid : Oid) :
    Declares cat [relid] c (c.addRelation cat relid) := by
  simp [Declares, addRelation, schema, relationVars, List.filter_map, Function.comp_def,
    TrueVar.column, List.range'_eq_map_range, Nat.add_comm]

theorem addVar_schema {v : Var} (h : c.addVar v = some c') :
    c'.listOfNotNullAttSchem = c.listOfNotNullAttSchem := by
  simp only [addVar, Option.bind_eq_bind, Option.bind_eq_some_iff] at h
  obtain ⟨_, _, isIn, _, h⟩ := h
  split at h
  · cases h
    rfl
  · obtain ⟨_, _, h⟩ := Option.bind_eq_some_iff.mp h
    cases h
    rfl

theorem closeBoolExpr_schema {isAnd : Bool} {nbArg : Nat} {l m : CellList.ListPtr}
    (h : c.closeBoolExpr isAnd nbArg l m = some c') :
    c'.listOfNotNullAttSchem = c.listOfNotNullAttSchem := by
  simp only [closeBoolExpr, Option.bind_eq_bind, Option.bind_eq_some_iff] at h
  obtain ⟨_, _, _, _, _, _, _, _, _, _, _, _, h⟩ := h
  cases h
  rfl

theorem closeNot_schema {l m : CellList.ListPtr} (h : c.closeNot l m = some c') :
    c'.listOfNotNullAttSchem = c.listOfNotNullAttSchem := by
  simp only [closeNot, Option.bind_eq_bind, Option.bind_eq_some_iff] at h
  obtain ⟨_, _, _, _, h⟩ := h
  cases h
  rfl

theorem closeOpExpr_schema (h : c.closeOpExpr = some c') :
    c'.listOfNotNullAttSchem = c.listOfNotNullAttSchem := by
  simp only [closeOpExpr, Option.bind_eq_bind, Option.bind_eq_some_iff] at h
  obtain ⟨_, _, h⟩ := h
  cases h
  rfl

theorem openOpExpr_schema (P : Pass α) (opno : Oid) :
    (P.openOpExpr opno c).listOfNotNullAttSchem = c.listOfNotNullAttSchem := by
  unfold Pass.openOpExpr
  split <;> rfl

end

mutual

/-- The walker records the NOT NULL columns of each relation that it comes to. -/
theorem Pass.myWalker_declares (P : Pass α) :
    ∀ (node : Node α) (c c' : ContextWalkerSetConstraint), P.myWalker cat node c = some c' →
      Declares cat (P.relations node) c c'
  | .boolExpr boolop args, c, c', h => by
    rw [Pass.myWalker] at h
    split at h
    · cases h
    · obtain ⟨c1, hargs, hclose⟩ := Option.bind_eq_some_iff.mp h
      have hlist := P.myWalkerList_declares args _ c1 hargs
      refine (hlist.before rfl).after ?_
      cases boolop with
      | notExpr => exact closeNot_schema hclose
      | andExpr => exact closeBoolExpr_schema hclose
      | orExpr => exact closeBoolExpr_schema hclose
  | .var v, c, c', h => by
    rw [Pass.myWalker] at h
    split at h
    · exact declares_nil (addVar_schema h)
    · cases h
      exact declares_nil rfl
  | .opExpr opno args, c, c', h => by
    rw [Pass.myWalker] at h
    obtain ⟨c1, hargs, hclose⟩ := Option.bind_eq_some_iff.mp h
    have hlist := (P.myWalkerList_declares args _ c1 hargs).before (openOpExpr_schema P opno)
    split at hclose
    · exact hlist.after (closeOpExpr_schema hclose)
    · cases hclose
      exact hlist
  | .query _ rtable _ quals, c, c', h => by
    rw [Pass.myWalker] at h
    obtain ⟨c1, hrtable, h⟩ := Option.bind_eq_some_iff.mp h
    obtain ⟨c2, hquals, h⟩ := Option.bind_eq_some_iff.mp h
    cases h
    have hfrom : Declares cat _ c c1 := (P.myWalkerList_declares rtable _ c1 hrtable).before rfl
    have hwhere : Declares cat _ c1 c2 := (P.myWalker_declares quals _ c2 hquals).before rfl
    exact (hfrom.trans hwhere).after rfl
  | .rangeTblEntry .rteSubquery relid (.query _ rtable _ _), c, c', h => by
    rw [Pass.myWalker] at h
    rw [Pass.relations]
    split at h
    · next henters =>
      rw [if_pos henters]
      exact P.myWalkerList_declares rtable c c' h
    · next henters =>
      cases h
      rw [if_neg henters]
      exact declares_addRelation relid
  | .rangeTblEntry .rteRelation relid _, c, c', h => by
    cases h
    exact declares_addRelation relid
  | .rangeTblEntry .rteSubquery relid .null, c, c', h
  | .rangeTblEntry .rteSubquery relid (.var _), c, c', h
  | .rangeTblEntry .rteSubquery relid (.const _), c, c', h
  | .rangeTblEntry .rteSubquery relid (.param _), c, c', h
  | .rangeTblEntry .rteSubquery relid (.opExpr _ _), c, c', h
  | .rangeTblEntry .rteSubquery relid (.boolExpr _ _), c, c', h
  | .rangeTblEntry .rteSubquery relid (.nullTest _ _), c, c', h
  | .rangeTblEntry .rteSubquery relid (.subLink _ _ _), c, c', h
  | .rangeTblEntry .rteSubquery relid (.rangeTblEntry _ _ _), c, c', h
  | .rangeTblEntry .rteSubquery relid (.targetEntry _ _), c, c', h
  | .rangeTblEntry .rteSubquery relid (.list _), c, c', h => by
    cases h
    exact declares_addRelation relid
  | .nullTest _ arg, c, c', h => P.myWalker_declares arg c c' h
  | .subLink _ testexpr subselect, c, c', h => by
    rw [Pass.myWalker] at h
    obtain ⟨c1, htest, hsub⟩ := Option.bind_eq_some_iff.mp h
    exact (P.myWalker_declares testexpr c c1 htest).trans
      (P.myWalker_declares subselect c1 c' hsub)
  | .targetEntry expr _, c, c', h => P.myWalker_declares expr c c' h
  | .list elems, c, c', h => P.myWalkerList_declares elems c c' h
  | .null, c, c', h | .const _, c, c', h | .param _, c, c', h => by
    cases h
    exact declares_nil rfl

theorem Pass.myWalkerList_declares (P : Pass α) :
    ∀ (nodes : List (Node α)) (c c' : ContextWalkerSetConstraint),
      P.myWalkerList cat nodes c = some c' → Declares cat (P.relationsList nodes) c c'
  | [], c, c', h => by
    cases h
    exact declares_nil rfl
  | node :: nodes, c, c', h => by
    rw [Pass.myWalkerList] at h
    obtain ⟨c1, hhead, htail⟩ := Option.bind_eq_some_iff.mp h
    exact (P.myWalker_declares node c c1 hhead).trans (P.myWalkerList_declares nodes c1 c' htail)

end

namespace Codd

theorem relationsList_eq_flatMap (P : Pass α) (nodes : List (Node α)) :
    P.relationsList nodes = nodes.flatMap P.relations := by
  induction nodes with
  | nil => rfl
  | cons node nodes ih => rw [Pass.relationsList, ih, List.flatMap_cons]

theorem relations_selectFrom (targetList : List (Node α)) (relids : List Oid) (quals : Node α) :
    pass.relations (selectFrom targetList relids quals) = relids ++ pass.relations quals := by
  rw [selectFrom, Pass.relations, relationsList_eq_flatMap, List.flatMap_map]
  exact congrArg (· ++ pass.relations quals) (List.flatMap_singleton' relids)

/-- In a condition of the fragment, the walker comes to the tables of the sub-selects. -/
theorem relations_cond {freeNot : Prop} {os : Scopes} {a : Node α}
    (h : Cond (Atom cat) freeNot os a) : pass.relations a = tables a := by
  have hargs : ∀ {args : List (Node α)}, (∀ a ∈ args, pass.relations a = tables a) →
      pass.relationsList args = tablesList args := by
    intro args h
    rw [relationsList_eq_flatMap, tablesList_eq_flatMap]
    exact List.flatMap_congr h
  have hoperand : ∀ {os : Scopes} {a : Node α}, Operand cat os a → pass.relations a = [] := by
    intro os a ha
    cases ha <;> rfl
  induction h with
  | leaf ha =>
    cases ha with
    | comparison h =>
      rw [Pass.relations, relationsList_eq_flatMap, tables]
      · exact List.flatMap_eq_nil_iff.mpr fun a ha => hoperand (h a ha)
      all_goals simp
    | nullTest h =>
      rw [Pass.relations, hoperand h]
      rfl
  | null => rfl
  | and _ _ ih | or _ _ ih => exact hargs ih
  | not _ _ ih => exact hargs (by simpa using ih)
  | @exist os targetList relids quals _ ih =>
    rw [tables_existsFrom, ← ih]
    exact relations_selectFrom targetList relids quals

/-- What the mutator knows at the start of a run: the NOT NULL columns of all tables. -/
theorem known_of_run {targetList : List (Node α)} {relids : List Oid} {quals : Node α}
    {freeNot : Prop} (h : Cond (Atom cat) freeNot [relids] quals) {w : ContextWalkerSetConstraint}
    {c : ContextModifier α}
    (hw : myWalker cat (selectFrom targetList relids quals) makeContextWalkerSetConstraint = some w)
    (hc : makeContextModifier true w = some c) :
    columns c.listOfNotNullInCurrent = (schema cat (relids ++ tables quals)).toFinset := by
  have hdeclares := pass.myWalker_declares _ _ w hw
  rw [relations_selectFrom, relations_cond h, Declares] at hdeclares
  have hknown : c.listOfNotNullInCurrent = w.listOfNotNullAttSchem := by
    simp only [makeContextModifier, Option.bind_eq_bind, Option.bind_eq_some_iff] at hc
    obtain ⟨_, _, _, _, _, _, hc⟩ := hc
    cases hc
    rfl
  rw [columns, hknown, hdeclares]
  rfl

theorem coveredList_of_forall {os : Scopes} {nodes : List (Node α)}
    (h : ∀ a ∈ nodes, ∀ last, covered os last a = true) :
    ∀ last, coveredList os last nodes = true := by
  induction nodes with
  | nil => exact fun _ => rfl
  | cons a nodes ih =>
    rw [List.forall_mem_cons] at h
    intro last
    rw [coveredList, h.1, ih h.2, Bool.and_self]

/-- There are no null tests in such a WHERE. -/
theorem covered_comparisons {ops : List Oid} {freeNot : Prop} {os : Scopes} {a : Node α}
    (h : Cond (Comparison cat ops) freeNot os a) : ∀ last, covered os last a = true := by
  induction h with
  | leaf ha =>
    obtain ⟨_, _, _⟩ := ha
    exact fun _ => rfl
  | null => exact fun _ => rfl
  | and _ _ ih | or _ _ ih => exact coveredList_of_forall ih
  | not _ _ ih => exact coveredList_of_forall (List.forall_mem_singleton.mpr ih)
  | exist _ ih =>
    intro last
    rw [existsFrom, selectFrom, covered, covered, map_relidOf_baseTable, ih]

/-- The whole run leaves the checks that are not known to be redundant. -/
theorem run_weakens (targetList : List (Node α)) {relids : List Oid} {quals : Node α}
    (h : Cond (Comparison cat weakened) False [relids] quals)
    (hchain : chained quals = true) (habs : absorbs [relids] quals ∅ ∅ = true)
    (hflow : (flow [relids] true (schema cat (relids ++ tables quals)).toFinset quals
      .neutral).isSome) :
    ∃ w c,
      myWalker cat (selectFrom targetList relids quals) makeContextWalkerSetConstraint = some w ∧
      makeContextModifier true w = some c ∧
      ∃ q' c', myMutator (selectFrom targetList relids quals) c = some (q', c') ∧
        q' = selectFrom targetList relids
          (weaken [relids] true (schema cat (relids ++ tables quals)).toFinset quals) := by
  have hatoms : Cond (Atom cat) True [relids] quals :=
    h.mono (fun _ _ => Comparison.atom) fun _ => trivial
  obtain ⟨w, c, hw, hc, hgiven, _⟩ :=
    given_of_run targetList hatoms (covered_comparisons h none) hchain habs
  have hknown := known_of_run hatoms hw hc
  rw [← hknown] at hflow ⊢
  obtain ⟨c', _, hrun, _⟩ := hgiven.runs h hflow
  exact ⟨w, c, hw, hc, _, c', hrun, rfl⟩

/-! ### Certain answers -/

/-- In no row a column that is declared NOT NULL is NULL. -/
def Respects (cat : Catalog) (D : Database α) : Prop :=
  ∀ relid attno, cat.attnotnull relid attno = true →
    ∀ row ∈ D relid, row.getD (attno - 1) none ≠ none

/-- Each row of `rows` stands for a row of `answers`, different ones for different ones: what a
query returns on a database with NULLs, and what it returns when they are replaced. -/
def CertainIn (rows answers : List (Row α)) : Prop :=
  ∃ chosen, chosen.Sublist answers ∧ List.Forall₂ Completes rows chosen

section

variable {I : Interp α} {D : Database α} {relids : List Oid} {quals : Node α}
  {targetList : List (Node α)}

/-- The translation between a database and another one that completes its rows. -/
theorem translates_sound (hI : ∀ opno ∈ weakened, I.Strict opno) {D' : Database α}
    (hD : ∀ relid, List.Forall₂ Completes (D relid) (D' relid)) {os : Scopes} {a : Node α}
    (h : Cond (Comparison cat weakened) False os a) {ρ ρ' : Env α} (hρ : ρ.Rel Completes ρ') :
    (evalCond I D (translate leaf true a) ρ = .true → evalCond I D' a ρ' = .true) ∧
      (evalCond I D' a ρ' = .true → evalCond I D (translate leaf false a) ρ = .true) := by
  refine translate_sound hD (fun _ _ ha => ?_) (fun _ _ ha _ _ hρ => ?_) (fun _ _ ha _ _ hρ => ?_)
    h hρ
  · obtain ⟨_, _, _⟩ := ha
    exact ⟨_, _, rfl⟩
  · obtain ⟨hop, hargs, _⟩ := ha
    exact leaf_true_sound (hI _ hop) hargs hρ
  · obtain ⟨_, hargs, _⟩ := ha
    exact leaf_false_complete hargs hρ

theorem completes_target (htarget : ∀ t ∈ targetList, SimpleEntry t) {D' : Database α}
    {ρ ρ' : Env α} (hρ : ρ.Rel Completes ρ') :
    Completes (evalScalars I D targetList ρ) (evalScalars I D' targetList ρ') := by
  rw [evalScalars_eq_map, evalScalars_eq_map, Completes, List.forall₂_map_left_iff,
    List.forall₂_map_right_iff]
  refine List.forall₂_same.mpr fun t ht => ?_
  cases htarget t ht with
  | @column v resno => exact Completes.column hρ v
  | constant => exact .inr rfl

/-- With all checks, a query returns certain answers only. -/
theorem certainIn_translate (hI : ∀ opno ∈ weakened, I.Strict opno)
    (htarget : ∀ t ∈ targetList, SimpleEntry t)
    (h : Cond (Comparison cat weakened) False [relids] quals) (D : Database α) (v : Valuation α) :
    CertainIn (evalQuery I D (selectFrom targetList relids (translate leaf true quals)) Env.empty)
      (evalQuery I (v.apply D) (selectFrom targetList relids quals) Env.empty) := by
  refine evalQuery_forall₂ (v.completes D) (fun ρ ρ' _ hρ htrue => ?_)
    (fun ρ ρ' hρ => completes_target htarget hρ)
  exact (translates_sound hI (v.completes D) h hρ).1 htrue

end

/-- The whole run on a query whose two traversals agree on the AND/OR nodes, with each table once:
the rewritten query returns certain answers only, on every database that has the declared NOT NULL
columns and the rows that negated sub-selects need. -/
theorem run_certain (cat : Catalog) (I : Interp α) (hI : ∀ opno ∈ weakened, I.Strict opno)
    (targetList : List (Node α)) (relids : List Oid) (quals : Node α)
    (htarget : ∀ t ∈ targetList, SimpleEntry t)
    (h : Cond (Comparison cat weakened) False [relids] quals)
    (hdist : (relids ++ tables quals).Nodup) (hchain : chained quals = true)
    (habs : absorbs [relids] quals ∅ ∅ = true)
    (hflow : (flow [relids] true (schema cat (relids ++ tables quals)).toFinset quals
      .neutral).isSome) :
    ∃ w c q' c',
      myWalker cat (selectFrom targetList relids quals) makeContextWalkerSetConstraint = some w ∧
      makeContextModifier true w = some c ∧
      myMutator (selectFrom targetList relids quals) c = some (q', c') ∧
      ∀ (D : Database α) (v : Valuation α), Respects cat D →
        supported D [relids] true quals = true → CertainIn (evalQuery I D q' Env.empty)
          (evalQuery I (v.apply D) (selectFrom targetList relids quals) Env.empty) := by
  obtain ⟨w, c, hw, hc, q', c', hrun, hq'⟩ :=
    run_weakens targetList h hchain habs hflow
  refine ⟨w, c, q', c', hw, hc, hrun, fun D v hD hsup => ?_⟩
  have hknown : NeverNull D (schema cat (relids ++ tables quals)).toFinset := fun col hcol =>
    hD col.1 col.2 (mem_schema (List.mem_toFinset.mp hcol))
  rw [hq', weaken_sameRows hI hknown h hdist hsup]
  exact certainIn_translate hI htarget h D v

/-- `SELECT r.a FROM r WHERE r.a = 1 AND NOT EXISTS (SELECT FROM s WHERE s.a = r.a)`, on rows of
which the one with a NULL is no certain answer. -/
theorem run_certain_unmatched :
    ∃ w c q' c',
      myWalker (Catalog.nullable 1) (selectFrom [.targetEntry (.var ⟨1, 1, 0⟩) 1] [1] unmatched)
        makeContextWalkerSetConstraint = some w ∧
      makeContextModifier true w = some c ∧
      myMutator (selectFrom [.targetEntry (.var ⟨1, 1, 0⟩) 1] [1] unmatched) c = some (q', c') ∧
      ∀ v : Valuation Int, CertainIn
        (evalQuery intInterp (fun relid => if relid = 1 then [[some 1], [none]] else [[some 2]]) q'
          Env.empty)
        (evalQuery intInterp
          (v.apply fun relid => if relid = 1 then [[some 1], [none]] else [[some 2]])
          (selectFrom [.targetEntry (.var ⟨1, 1, 0⟩) 1] [1] unmatched) Env.empty) := by
  obtain ⟨w, c, q', c', hw, hc, hrun, hcertain⟩ := run_certain (Catalog.nullable 1) intInterp
    (fun _ _ => intInterp_strict _) [.targetEntry (.var ⟨1, 1, 0⟩) 1] [1] unmatched
    (by simpa using .column) unmatched_cond (by decide) (by decide) (by decide) (by decide)
  exact ⟨w, c, q', c', hw, hc, hrun, fun v => hcertain _ v (fun _ _ h => by cases h) (by decide)⟩

end Codd

end Infed
