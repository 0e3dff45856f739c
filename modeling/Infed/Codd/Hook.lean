import Infed.Codd.Answers
import Infed.Exist.Raises
import Infed.Split.Levels

/-! `my_post_parse_analyse_hook`: the translation and, on what it returns, the three passes.  The
passes keep the rows of the translated query, so that what the hook leaves of a query returns
certain answers only. -/

namespace Infed.Codd

variable {α : Type} {cat : Catalog}

/-- The three passes; the fuel is for the loops of `trueSplit`. -/
def optimizeDeep (fuel : Nat) (query : Node α) : Option (Node α) := do
  let query ← Self.optimizeSelfConstraintDeep query
  let query ← Split.optimizeSplitDeep fuel query
  Exist.Cells.optimizeExistDeep query

def myPostParseAnalyseHook (cat : Catalog) (fuel : Nat) (query : Node α) : Option (Node α) := do
  let ctx ← myWalker cat query makeContextWalkerSetConstraint
  let ctxM ← makeContextModifier true ctx
  let (query, _) ← myMutator query ctxM
  optimizeDeep fuel query

/-! ### The passes -/

theorem strips_positive : Self.Strips (Positive (α := α)) Link := by
  rintro l a (h | ⟨i, h1, hn, h⟩)
  · exact ⟨piece_stays (Self.Clause.test (Single.test (.inl h))) h.takes, fun _ => h⟩
  · refine ⟨piece_onTable h1 hn h, fun hstays => ?_⟩
    rw [h.oneTable.takes] at hstays
    cases hstays

/-- What `optimize_self_constraint_deep` leaves of a NOT EXISTS: links, and ORs that stay. -/
def Unsplit (l : Level) (a : Node α) : Prop := Link l a ∨ Alternatives l a

theorem Unsplit.mixed {l : Level} {a : Node α} (h : Unsplit l a) : Split.Mixed l a :=
  h.imp_left .inl

theorem strips_negative : Self.Strips (Negative (α := α)) Unsplit := by
  rintro l a (h | h)
  · exact ⟨(strips_positive l a h).1, fun hstays => .inl ((strips_positive l a h).2 hstays)⟩
  · refine ⟨?_, fun _ => .inr h⟩
    obtain ⟨_, _, hargs, hstays⟩ := h
    exact piece_stays (.or fun a ha => (hargs a ha).test) hstays

/-- The passes, one after the other, keep the rows. -/
theorem optimizeDeep_sameRows {relids : List Oid} {tied : List Nat} {leaf : Bool} {quals : Node α}
    (h : Nested cat .tied Positive Piece Negative ⟨relids.length, tied, leaf⟩ quals) :
    ∃ q' enough, (∀ fuel ≥ enough,
        optimizeDeep fuel (selectFrom (Self.selectStar cat relids) relids quals) = some q') ∧
      ∀ I D, Self.Conforms cat D → ∀ ρ, evalQuery I D q' ρ =
        evalQuery I D (selectFrom (Self.selectStar cat relids) relids quals) ρ := by
  obtain ⟨quals1, h1⟩ := Self.deepens_nested strips_positive Self.strips_piece strips_negative h
  obtain ⟨rtable, hself, _, hrows⟩ := h1.query (Self.forall₂_over_baseTables cat relids)
  obtain ⟨quals2, h2⟩ := Split.deepens_nested (fun _ _ h => h.mixed) (fun _ _ h => h.1) h1.nested
  obtain ⟨quals3, h3⟩ := Exist.Cells.deepens_nested (fun _ _ h => .inl h) (fun _ _ => id)
    (fun _ _ h => h.1) h2.nested
  obtain ⟨enough, hsplit⟩ := h2.run
  refine ⟨selectStarFrom cat relids rtable quals3, enough, fun fuel hfuel => ?_,
    fun I D hD ρ => ?_⟩
  · have hfirst : Self.optimizeSelfConstraintDeep
        (selectFrom (Self.selectStar cat relids) relids quals) = _ :=
      Self.optimizeSelfConstraintDeep_eq hself
    simp [optimizeDeep, hfirst, selectStarFrom, Split.optimizeSplitDeep, hsplit fuel hfuel,
      Exist.Cells.optimizeExistDeep, h3.run]
  · have hlast : evalQuery I D (selectStarFrom cat relids rtable quals3) ρ =
        evalQuery I D (selectStarFrom cat relids rtable (Self.strip none quals1)) ρ := by
      simp only [selectStarFrom, evalQuery, h3.value I D hD, h2.value]
    rw [hlast, hrows I D hD]
    rfl

/-! ### The hook -/

/-- The whole hook on a `SELECT *` query over base tables, whose translation has the shape that the
passes are made for: it returns, and the query that it leaves returns certain answers only, on every
database with the columns and the NOT NULL columns that the catalog declares and the rows that
negated sub-selects need. -/
theorem hook_certain (cat : Catalog) (I : Interp α) (hI : ∀ opno ∈ weakened, I.Strict opno)
    (relids : List Oid) (quals : Node α) (h : Cond (Comparison cat weakened) False [relids] quals)
    (hdist : (relids ++ tables quals).Nodup) (hchain : chained quals = true)
    (habs : absorbs [relids] quals ∅ ∅ = true)
    (hflow : (flow [relids] true (schema cat (relids ++ tables quals)).toFinset quals
      .neutral).isSome) (tied : List Nat)
    (hnested : Nested cat .tied Positive Piece Negative ⟨relids.length, tied, false⟩
      (weaken [relids] true (schema cat (relids ++ tables quals)).toFinset quals)) :
    ∃ q' enough, (∀ fuel ≥ enough, myPostParseAnalyseHook cat fuel
        (selectFrom (Self.selectStar cat relids) relids quals) = some q') ∧
      ∀ (D : Database α) (v : Valuation α), Self.Conforms cat D → Respects cat D →
        supported D [relids] true quals = true →
        CertainIn (evalQuery I D q' Env.empty) (evalQuery I (v.apply D)
          (selectFrom (Self.selectStar cat relids) relids quals) Env.empty) := by
  obtain ⟨w, c, hw, hc, q1, c', hrun, hq1⟩ :=
    run_weakens (Self.selectStar cat relids) h hchain habs hflow
  obtain ⟨q', enough, hpasses, hrows⟩ := optimizeDeep_sameRows hnested
  refine ⟨q', enough, fun fuel hfuel => ?_, fun D v hconforms hD hsup => ?_⟩
  · simp [myPostParseAnalyseHook, hw, hc, hrun, hq1, hpasses fuel hfuel]
  · have hknown : NeverNull D (schema cat (relids ++ tables quals)).toFinset := fun col hcol =>
      hD col.1 col.2 (mem_schema (List.mem_toFinset.mp hcol))
    rw [hrows I D hconforms, weaken_sameRows hI hknown h hdist hsup]
    exact certainIn_translate hI (simpleEntry_targetEntries _ _) h D v

/-- Two columns in every table, the first of which is NOT NULL. -/
def keyed : Catalog where
  relnatts _ := 2
  attnotnull _ attno := attno == 1

/-- `s.k = r.k`, inside a sub-select with `s` of a query over `r`. -/
def sameKey : Node Int := .opExpr 98 [.var ⟨1, 1, 0⟩, .var ⟨1, 1, 1⟩]

/-- `s.a = r.a`. -/
def sameValue : Node Int := .opExpr 98 [.var ⟨1, 2, 0⟩, .var ⟨1, 2, 1⟩]

/-- `r.a = 1 AND NOT EXISTS (SELECT * FROM s, t WHERE ...)`. -/
def withoutPair (args : List (Node Int)) : Node Int :=
  .boolExpr .andExpr [compared 98 ⟨1, 2, 0⟩ 1, .boolExpr .notExpr
    [existsFrom (Self.selectStar keyed [2, 3]) [2, 3] (.boolExpr .andExpr args)]]

/-- `r.a = 1 AND NOT EXISTS (SELECT * FROM s, t WHERE s.k = r.k AND s.a = r.a AND t.a = 2)`. -/
def paired : Node Int := withoutPair [sameKey, sameValue, compared 98 ⟨2, 2, 0⟩ 2]

theorem paired_cond : Cond (Comparison keyed weakened) False [[1]] paired := by
  have hequal : ∀ {os : Scopes} {v : Var}, v.InScope keyed os → ∀ x : Int,
      Cond (Comparison keyed weakened) False os (compared 98 v x) := fun hv x =>
    .leaf (.compared (by decide) hv x)
  have hsame : ∀ j, 1 ≤ j → j ≤ 2 → Cond (Comparison keyed weakened) False [[2, 3], [1]]
      (.opExpr 98 [.var ⟨1, j, 0⟩, .var ⟨1, j, 1⟩] : Node Int) := fun j h1 h2 =>
    .leaf (.mk (by decide) (by simpa using ⟨.column ⟨2, rfl, h1, h2⟩, .column ⟨1, rfl, h1, h2⟩⟩)
      ⟨_, List.mem_cons_self⟩)
  refine .and (by simp) (List.forall_mem_cons.mpr ⟨hequal ⟨1, rfl, by decide, by decide⟩ 1,
    List.forall_mem_singleton.mpr (.not (.inr rfl) (.exist (.and (by simp) ?_)))⟩)
  exact List.forall_mem_cons.mpr ⟨hsame 1 (by decide) (by decide), List.forall_mem_cons.mpr
    ⟨hsame 2 (by decide) (by decide), List.forall_mem_singleton.mpr
      (hequal ⟨3, rfl, by decide, by decide⟩ 2)⟩⟩

/-- The keys need no check, and neither does `r.a`. -/
theorem weaken_paired : weaken [[1]] true (schema keyed ([1] ++ tables paired)).toFinset paired =
    withoutPair [sameKey, .boolExpr .orExpr [isNull ⟨1, 2, 0⟩, sameValue],
      .boolExpr .orExpr [isNull ⟨2, 2, 0⟩, compared 98 ⟨2, 2, 0⟩ 2]] := rfl

/-- `s` is linked with `r`, `t` with nothing; of the two ORs one is on `t` alone. -/
theorem nested_paired : Nested keyed .tied Positive Piece Negative ⟨1, [1], false⟩
    (withoutPair [sameKey, .boolExpr .orExpr [isNull ⟨1, 2, 0⟩, sameValue],
      .boolExpr .orExpr [isNull ⟨2, 2, 0⟩, compared 98 ⟨2, 2, 0⟩ 2]]) := by
  have hequal : ∀ i j (x : Int), Self.Local i (compared 98 ⟨i, j, 0⟩ x) := fun i j x =>
    .comparison (by simpa using ⟨.column, .constant⟩) ⟨_, List.mem_cons_self⟩
  refine .and (List.forall_mem_cons.mpr ⟨.atom ?_, List.forall_mem_singleton.mpr
    (.notExist Rules.tied_nests_first (Self.forall₂_over_baseTables keyed [2, 3])
      (Rules.tied_first (by decide) List.mem_cons_self : Rules.tied.subselect ⟨2, [1], true⟩ _)
      (.and ?_))⟩)
  · exact piece_onTable (i := 1) (by decide) (by decide) (.one (hequal 1 2 1))
  · refine List.forall_mem_cons.mpr ⟨.atom (.inl (.inl (link_first _ _ _ 1))),
      List.forall_mem_cons.mpr ⟨.atom (.inr (.or rfl (by simp) ?_ rfl)),
        List.forall_mem_singleton.mpr
          (.atom (.inl (.inr ⟨2, by decide, by decide, .or (by simp) ?_⟩)))⟩⟩
    · exact List.forall_mem_cons.mpr ⟨.inr ⟨1, by decide, by decide, .nullTest⟩,
        List.forall_mem_singleton.mpr (.inl (link_first _ _ _ 2))⟩
    · exact List.forall_mem_cons.mpr ⟨.nullTest, List.forall_mem_singleton.mpr (hequal 2 2 2)⟩

/-- Two rows in `r`, the second of which has the key of a row with a NULL in `s`. -/
def someRows : Database Int := fun relid =>
  if relid = 1 then [[some 1, some 1], [some 2, some 1]] else [[some 2, none]]

theorem someRows_eq {relid : Oid} {row : Row Int} (h : row ∈ someRows relid) :
    row = [some 1, some 1] ∨ row = [some 2, some 1] ∨ row = [some 2, none] := by
  unfold someRows at h
  split at h
  · exact (List.mem_cons.mp h).imp_right fun h => .inl (List.mem_singleton.mp h)
  · exact .inr (.inr (List.mem_singleton.mp h))

theorem conforms_someRows : Self.Conforms keyed someRows := by
  intro relid row hrow
  rcases someRows_eq hrow with rfl | rfl | rfl <;> rfl

theorem respects_someRows : Respects keyed someRows := by
  intro relid attno h row hrow
  obtain rfl : attno = 1 := by simpa [keyed] using h
  rcases someRows_eq hrow with rfl | rfl | rfl <;> decide

/-- Of `SELECT * FROM r WHERE r.a = 1 AND NOT EXISTS (SELECT * FROM s, t WHERE s.k = r.k AND
s.a = r.a AND t.a = 2)` the hook leaves two NOT EXISTS, from each of which `t` is taken out. -/
theorem hook_certain_paired :
    ∃ q' enough, (∀ fuel ≥ enough, myPostParseAnalyseHook keyed fuel
        (selectFrom (Self.selectStar keyed [1]) [1] paired) = some q') ∧
      ∀ v : Valuation Int, CertainIn (evalQuery intInterp someRows q' Env.empty)
        (evalQuery intInterp (v.apply someRows)
          (selectFrom (Self.selectStar keyed [1]) [1] paired) Env.empty) := by
  obtain ⟨q', enough, hrun, hcertain⟩ := hook_certain keyed intInterp
    (fun _ _ => intInterp_strict _) [1] paired paired_cond (by decide) (by decide) (by decide)
    (by decide) [1] (weaken_paired ▸ nested_paired)
  exact ⟨q', enough, hrun, fun v => hcertain _ v conforms_someRows respects_someRows (by decide)⟩

/-! ### A query on which the hook ends with an error -/

/-- `NOT EXISTS (SELECT * FROM ss WHERE EXISTS (SELECT * FROM ts WHERE inner))`. -/
def noneExists (cat : Catalog) (ss ts : List Oid) (inner : Node α) : Node α :=
  .boolExpr .notExpr [existsFrom (Self.selectStar cat ss) ss
    (existsFrom (Self.selectStar cat ts) ts inner)]

/-- The column may be NULL as far as the catalog says. -/
def Nullable (cat : Catalog) (os : Scopes) (v : Var) : Prop :=
  v.InScope cat os ∧ ∀ col, columnOf os v = some col → cat.attnotnull col.1 col.2 = false

theorem Nullable.missing {os : Scopes} {v : Var} (h : Nullable cat os v) (relids : List Oid) :
    missing os (schema cat relids).toFinset (.var v : Node α) = [isNull v] := by
  obtain ⟨⟨relid, hcol, _⟩, hnull⟩ := h
  have hout : (relid, v.varattno) ∉ schema cat relids := fun hmem => by
    have hnotNull := mem_schema hmem
    rw [hnull _ hcol] at hnotNull
    cases hnotNull
  simp [Codd.missing, hcol, hout]

section

variable {rs ss ts : List Oid} {opno : Oid} {x o : Var}

theorem weaken_noneExists (hx : Nullable cat [ts, ss, rs] x) (ho : Nullable cat [ts, ss, rs] o)
    (relids : List Oid) : weaken [rs] true (schema cat relids).toFinset
        (noneExists cat ss ts (.opExpr opno [.var x, .var o]) : Node α) =
      noneExists cat ss ts (Exist.Cells.weakenedPair opno x o) := by
  rw [noneExists, weaken_not, weaken_existsFrom, weaken_existsFrom, Bool.not_true, weaken]
  simp only [List.flatMap_cons, List.flatMap_nil, hx.missing, ho.missing]
  rfl

theorem noneExists_cond (hop : opno ∈ weakened) (hx : Nullable cat [ts, ss, rs] x)
    (ho : Nullable cat [ts, ss, rs] o) : Cond (Comparison cat weakened) False [rs]
      (noneExists cat ss ts (.opExpr opno [.var x, .var o]) : Node α) :=
  .not (.inr rfl) (.exist (.exist (.leaf (.mk hop (List.forall_mem_cons.mpr
    ⟨.column hx.1, List.forall_mem_singleton.mpr (.column ho.1)⟩) ⟨x, List.mem_cons_self⟩))))

/-- `SELECT * FROM rs WHERE NOT EXISTS (SELECT * FROM ss WHERE EXISTS (SELECT * FROM ts WHERE
inner))`. -/
def selectNone (cat : Catalog) (rs ss ts : List Oid) (inner : Node α) : Node α :=
  selectFrom (Self.selectStar cat rs) rs (noneExists cat ss ts inner)

theorem optimizeSelfConstraintDeep_selectNone (hne : Self.tableOf x ≠ Self.tableOf o) :
    Self.optimizeSelfConstraintDeep
        (selectNone cat rs ss ts (Exist.Cells.weakenedPair opno x o) : Node α) =
      some (selectNone cat rs ss ts (Exist.Cells.weakenedPair opno x o)) := by
  have hatom : Self.Settled ⟨ts.length, [], true⟩ (Exist.Cells.weakenedPair opno x o : Node α) :=
    ⟨Exist.Cells.weakenedPair_clause opno x o, Exist.Cells.weakenedPair_stays opno hne⟩
  have hover := Self.forall₂_over_baseTables (α := α) cat
  have hinner : Nested cat .any Self.Settled Self.Settled Self.Settled ⟨ss.length, [], false⟩
      (existsFrom (Self.selectStar cat ts) ts (Exist.Cells.weakenedPair opno x o) : Node α) :=
    .exist trivial (hover ts) trivial (.atom hatom)
  have hnested : Nested cat .any Self.Settled Self.Settled Self.Settled ⟨rs.length, [], false⟩
      (noneExists cat ss ts (Exist.Cells.weakenedPair opno x o) : Node α) :=
    .notExist trivial (hover ss) trivial hinner
  have hcopy := Self.copy_settled (fun _ _ => id) (fun _ _ => id) hnested
  exact Self.optimizeSelfConstraintDeep_eq (Self.copy_query hnested hcopy)

theorem optimizeSplitDeep_selectNone (inner : Node α) {fuel : Nat} (hfuel : 2 ≤ fuel) :
    Split.optimizeSplitDeep fuel (selectNone cat rs ss ts inner) =
      some (selectNone cat rs ss ts inner) := by
  obtain ⟨fuel, rfl⟩ := Nat.exists_eq_add_of_le' hfuel
  rfl

theorem Nullable.varno_le (h : Nullable cat [ts, ss, rs] x) (hown : x.varlevelsup = 0) :
    1 ≤ x.varno ∧ x.varno ≤ ts.length := by
  obtain ⟨⟨relid, hcol, _⟩, _⟩ := h
  simp only [columnOf, hown, List.getElem?_cons_zero, Option.bind_eq_bind, Option.bind_some,
    Option.bind_eq_some_iff] at hcol
  obtain ⟨_, hnth, _⟩ := hcol
  exact ⟨(entryAt_eq_some hnth).1, (entryAt_eq_some hnth).2.1⟩

/-- The sub-select over `ts` is where the error is. -/
theorem optimizeExistDeep_selectNone (hown : x.varlevelsup = 0) (houter : 0 < o.varlevelsup)
    (hrange : 1 ≤ x.varno ∧ x.varno ≤ ts.length) :
    Exist.Cells.optimizeExistDeep
      (selectNone cat rs ss ts (Exist.Cells.weakenedPair opno x o) : Node α) = none := by
  have hat : nodeAt [0, 1, 0, 1]
      (noneExists cat ss ts (Exist.Cells.weakenedPair opno x o) : Node α) =
        some (.query (Self.selectStar cat ts) (ts.map baseTable) (List.range' 1 ts.length)
          (Exist.Cells.weakenedPair opno x o)) := rfl
  exact Exist.Cells.optimizeExistDeep_raises hat hown hrange.1
    (by rw [List.length_map]; exact hrange.2) houter

end

/-- A comparison of a column with one of the enclosing query, both nullable, in an EXISTS inside a
NOT EXISTS: the translation returns and the first two passes leave what it returns as it is, but the
last one ends with the error of `list_concat`, and so does the hook. -/
theorem hook_raises (cat : Catalog) (rs ss ts : List Oid) {opno : Oid} (hop : opno ∈ weakened)
    {x o : Var} (hx : Nullable cat [ts, ss, rs] x) (ho : Nullable cat [ts, ss, rs] o)
    (hown : x.varlevelsup = 0) (houter : 0 < o.varlevelsup) :
    ∃ w c q c',
      myWalker cat (selectNone cat rs ss ts (.opExpr opno [.var x, .var o]) : Node α)
        makeContextWalkerSetConstraint = some w ∧
      makeContextModifier true w = some c ∧
      myMutator (selectNone cat rs ss ts (.opExpr opno [.var x, .var o]) : Node α) c =
        some (q, c') ∧
      ∀ fuel ≥ 2, Self.optimizeSelfConstraintDeep q = some q ∧
        Split.optimizeSplitDeep fuel q = some q ∧ Exist.Cells.optimizeExistDeep q = none ∧
        myPostParseAnalyseHook cat fuel
          (selectNone cat rs ss ts (.opExpr opno [.var x, .var o]) : Node α) = none := by
  obtain ⟨w, c, hw, hc, q, c', hrun, hq⟩ := run_weakens (Self.selectStar (α := α) cat rs)
    (noneExists_cond hop hx ho) rfl rfl (by rfl)
  rw [weaken_noneExists hx ho] at hq
  obtain rfl : q = selectNone cat rs ss ts (Exist.Cells.weakenedPair opno x o) := hq
  have hne : Self.tableOf x ≠ Self.tableOf o := by
    simp [Self.tableOf]
    omega
  refine ⟨w, c, _, c', hw, hc, hrun, fun fuel hfuel => ?_⟩
  have hself : Self.optimizeSelfConstraintDeep
      (selectNone cat rs ss ts (Exist.Cells.weakenedPair opno x o) : Node α) = _ :=
    optimizeSelfConstraintDeep_selectNone hne
  have hsplit : Split.optimizeSplitDeep fuel
      (selectNone cat rs ss ts (Exist.Cells.weakenedPair opno x o) : Node α) = _ :=
    optimizeSplitDeep_selectNone _ hfuel
  have hexist : Exist.Cells.optimizeExistDeep
      (selectNone cat rs ss ts (Exist.Cells.weakenedPair opno x o) : Node α) = none :=
    optimizeExistDeep_selectNone hown houter (hx.varno_le hown)
  refine ⟨hself, hsplit, hexist, ?_⟩
  rw [selectNone] at hself hsplit hexist
  simp [myPostParseAnalyseHook, selectNone, hw, hc, hrun, optimizeDeep, hself, hsplit, hexist]

/-- `SELECT * FROM r WHERE NOT EXISTS (SELECT * FROM s WHERE EXISTS (SELECT * FROM t WHERE
t.a = s.a))`. -/
theorem hook_raises_doubled :
    ∃ q : Node Int, Self.optimizeSelfConstraintDeep q = some q ∧
      Split.optimizeSplitDeep 2 q = some q ∧ Exist.Cells.optimizeExistDeep q = none ∧
      myPostParseAnalyseHook (Catalog.nullable 1) 2 (selectNone (.nullable 1) [1] [2] [3]
        (.opExpr 98 [.var ⟨1, 1, 0⟩, .var ⟨1, 1, 1⟩]) : Node Int) = none := by
  have hop : 98 ∈ weakened := by decide
  have hx : Nullable (Catalog.nullable 1) [[3], [2], [1]] ⟨1, 1, 0⟩ :=
    ⟨⟨3, rfl, by decide, by decide⟩, fun _ _ => rfl⟩
  have ho : Nullable (Catalog.nullable 1) [[3], [2], [1]] ⟨1, 1, 1⟩ :=
    ⟨⟨2, rfl, by decide, by decide⟩, fun _ _ => rfl⟩
  obtain ⟨_, _, q, _, _, _, _, h⟩ :=
    hook_raises (α := Int) (.nullable 1) [1] [2] [3] hop hx ho rfl (by decide)
  exact ⟨q, h 2 le_rfl⟩

end Infed.Codd
