import Infed.Combinations
import Infed.Exist.Extract
import Infed.Self.Preserves

/-! Taking tables that no comparison mentions out of a sub-select preserves whether it has rows: a
combination of rows for all tables is one for the tables that are left and a row of each table that
was taken out, which is what the added EXISTS asks for. -/

namespace Infed.Exist

variable {α : Type} {I : Interp α} {D : Database α}

/-! ### Renumbering -/

theorem deacrease_singleton (i k : Nat) : deacrease i [k] = if k < i then i - 1 else i := by
  unfold deacrease
  split <;> simp [*]

theorem deacrease_inj {i j k : Nat} (hi : i ≠ k) (hj : j ≠ k)
    (h : deacrease i [k] = deacrease j [k]) : i = j := by
  rw [deacrease_singleton, deacrease_singleton] at h
  split at h <;> split at h <;> omega

/-- The rows of `z'`, whose entries are numbered without the `k`-th, are those of `z`. -/
def Shifts (k : Nat) (z z' : List (Nat × Row α)) : Prop :=
  ∀ i, i ≠ k → z'.lookup (deacrease i [k]) = z.lookup i

section Renumber

variable {k : Nat} {ks : List Nat}

theorem renumberVar_avoids (hk : k ∉ ks) {v : Var} (h : v.varlevelsup = 0 → v.varno ∉ k :: ks) :
    (renumberVar [k] v).varlevelsup = 0 →
      (renumberVar [k] v).varno ∉ ks.map (deacrease · [k]) := by
  unfold renumberVar
  split
  · next h0 =>
    rintro - hmem
    obtain ⟨j, hj, heq⟩ := List.mem_map.mp hmem
    obtain ⟨hvk, hvks⟩ := not_or.mp (List.mem_cons.not.mp (h h0))
    have hjk : j ≠ k := by
      rintro rfl
      exact hk hj
    exact hvks (deacrease_inj hjk hvk heq ▸ hj)
  · next h0 => exact fun h0' => absurd h0' h0

theorem column_renumberVar {v : Var} (h : v.varlevelsup = 0 → v.varno ≠ k) (ρ : Env α)
    {z z' : List (Nat × Row α)} (hz : Shifts k z z') :
    (ρ.push z').column (renumberVar [k] v) = (ρ.push z).column v := by
  unfold renumberVar
  split
  · next h0 => simp [Env.column, Env.row, h0, hz v.varno (h h0)]
  · next h0 =>
    obtain ⟨l, hl⟩ := Nat.exists_eq_succ_of_ne_zero h0
    simp [Env.column, Env.row, hl]

/-- A column of a table before the one that is taken out has its value under the old number. -/
theorem column_before {v : Var} (h : v.varlevelsup = 0 → v.varno < k) (ρ : Env α)
    {z z' : List (Nat × Row α)} (hz : Shifts k z z') :
    (ρ.push z').column v = (ρ.push z).column v := by
  have hsame : renumberVar [k] v = v := by
    unfold renumberVar
    split
    · next h0 => rw [deacrease_singleton, if_neg (Nat.lt_asymm (h h0))]
    · rfl
  have hcolumn := column_renumberVar (fun h0 => Nat.ne_of_lt (h h0)) ρ hz
  rwa [hsame] at hcolumn

/-- A condition that the removal of the tables `ks` does not touch: it has no columns of them, and
its sub-selects refer only to tables before them.  An EXISTS that was added asks for a row of one
FROM entry. -/
inductive Untouched (ks : List Nat) : Node α → Prop where
  | condition {a : Node α} : a.isExpression = true → Avoids ks (columnsOf a) →
    (∀ v ∈ innerColumns a, v.varlevelsup = 0 → ∀ k ∈ ks, v.varno < k) → Untouched ks a
  | exist {targetList : List (Node α)} {rte : Node α} : Closed rte →
    Untouched ks (.subLink .existsSublink .null (.query targetList [rte] [1] .null))
  | and {args : List (Node α)} : (∀ a ∈ args, Untouched ks a) →
    Untouched ks (.boolExpr .andExpr args)

theorem Untouched.isExpression {a : Node α} (h : Untouched ks a) : a.isExpression = true := by
  induction h with
  | condition hexpr => exact hexpr
  | exist => rfl
  | and _ ih => exact Node.areExpressions_iff.mpr ih

theorem Untouched.avoids {a : Node α} (h : Untouched ks a) : Avoids ks (columnsOf a) := by
  induction h with
  | condition _ havoids => exact havoids
  | exist => simp [Avoids, columnsOf]
  | and _ ih =>
    intro v hv
    obtain ⟨a, ha, hva⟩ := mem_columnsOfList.mp hv
    exact ih a ha v hva

/-- Without the `k`-th table the others are still to be taken out. -/
theorem Untouched.renumber (hk : k ∉ ks) {a : Node α} (h : Untouched (k :: ks) a) :
    Untouched (ks.map (deacrease · [k])) (mapColumns (renumberVar [k]) a) := by
  induction h with
  | condition hexpr havoids hinner =>
    refine .condition (by rw [isExpression_mapColumns, hexpr]) ?_ ?_
    · rw [columnsOf_mapColumns]
      intro v hv
      obtain ⟨w, hw, rfl⟩ := List.mem_map.mp hv
      exact renumberVar_avoids hk (havoids w hw)
    · rw [innerColumns_mapColumns]
      intro v hv h0 j hj
      obtain ⟨i, hi, rfl⟩ := List.mem_map.mp hj
      have hvk := hinner v hv h0 k List.mem_cons_self
      have hvi := hinner v hv h0 i (List.mem_cons_of_mem _ hi)
      rw [deacrease_singleton]
      split <;> omega
  | exist hclosed => exact .exist hclosed
  | and _ ih =>
    rw [mapColumns, mapColumnsList_eq_map]
    refine .and fun a' ha' => ?_
    obtain ⟨a, ha, rfl⟩ := List.mem_map.mp ha'
    exact ih a ha

/-- The renumbered condition has the meaning that it had. -/
theorem Untouched.evalCond_renumber {a : Node α} (h : Untouched (k :: ks) a) (ρ : Env α)
    {z z' : List (Nat × Row α)} (hz : Shifts k z z') :
    evalCond I D (mapColumns (renumberVar [k]) a) (ρ.push z') = evalCond I D a (ρ.push z) := by
  induction h with
  | condition _ havoids hinner =>
    refine evalCond_mapColumns _ _ ⟨fun v hv => ?_, fun v hv => ?_, rfl⟩
    · exact column_renumberVar (fun h0 e => havoids v hv h0 (by simp [e])) ρ hz
    · exact column_before (fun h0 => hinner v hv h0 k List.mem_cons_self) ρ hz
  | @exist targetList rte hclosed =>
    have hrows : evalRte I D rte ((ρ.push z').push []) = evalRte I D rte ((ρ.push z).push []) :=
      hclosed I D rfl
    show evalCond I D (.subLink .existsSublink .null (.query targetList [rte] [1] .null)) _ = _
    rw [evalCond, evalCond, evalQuery, evalQuery, evalRtable, evalRtable, hrows]
    simp only [evalRtable, evalCond, List.isEmpty_map]
  | @and args _ ih =>
    have hconds : evalConds I D (args.map (mapColumns (renumberVar [k]))) (ρ.push z') =
        evalConds I D args (ρ.push z) := by
      rw [evalConds_eq_map, evalConds_eq_map, List.map_map]
      exact List.map_congr_left ih
    rw [mapColumns, mapColumnsList_eq_map, evalCond, evalCond, hconds]

end Renumber

/-! ### Combinations without one table -/

/-- The combination of the rows `f`. -/
def tuple (f : Nat → Row α) (m : Nat) : List (Nat × Row α) :=
  (List.range' 1 m).map fun i => (i, f i)

theorem lookup_tuple (f : Nat → Row α) (m i : Nat) :
    (tuple f m).lookup i = if 1 ≤ i ∧ i ≤ m then some (f i) else none := by
  rw [tuple, lookup_map_pair]
  simp only [List.mem_range'_1]
  congr 1
  exact propext ⟨fun h => ⟨h.1, by omega⟩, fun h => ⟨h.1, by omega⟩⟩

theorem getD_eraseIdx {β : Type} (l : List (List β)) {k i : Nat} (h1 : 1 ≤ k) (hi : 1 ≤ i) :
    (l.eraseIdx (k - 1)).getD (i - 1) [] = l.getD ((if i < k then i else i + 1) - 1) [] := by
  rw [List.getD_eq_getElem?_getD, List.getElem?_eraseIdx, List.getD_eq_getElem?_getD]
  by_cases h : i < k
  · rw [if_pos (by omega), if_pos h]
  · rw [if_neg (by omega), if_neg h, show i - 1 + 1 = i + 1 - 1 by omega]

/-- The number before the renumbering, from the one after it. -/
theorem shift_deacrease {i k : Nat} (hi : i ≠ k) :
    (if deacrease i [k] < k then deacrease i [k] else deacrease i [k] + 1) = i := by
  rw [deacrease_singleton]
  split <;> split <;> omega

theorem deacrease_mem_range {i k m : Nat} (h1 : 1 ≤ k) (hk : k ≤ m) (hi : i ≠ k) :
    1 ≤ deacrease i [k] ∧ deacrease i [k] ≤ m - 1 ↔ 1 ≤ i ∧ i ≤ m := by
  rw [deacrease_singleton]
  split <;> omega

/-- There is a combination of rows exactly if there is one without the `k`-th table and that table
has a row. -/
theorem exists_combination_shift {tables : List (List (Row α))} {m k : Nat} (h1 : 1 ≤ k)
    (hk : k ≤ m)
    {Q Q' : List (Nat × Row α) → Prop} (hQ : ∀ z z', Shifts k z z' → (Q' z' ↔ Q z)) :
    (∃ z ∈ combinations tables (List.range' 1 m), Q z) ↔
      (∃ z ∈ combinations (tables.eraseIdx (k - 1)) (List.range' 1 (m - 1)), Q' z) ∧
        tables.getD (k - 1) [] ≠ [] := by
  rw [exists_combination_iff List.nodup_range', exists_combination_iff List.nodup_range']
  simp only [List.mem_range'_1]
  constructor
  · rintro ⟨f, hf, hQf⟩
    refine ⟨⟨fun i => f (if i < k then i else i + 1), fun i hi => ?_, ?_⟩, ?_⟩
    · rw [getD_eraseIdx tables h1 hi.1]
      exact hf _ (by split <;> omega)
    · refine (hQ (tuple f m) (tuple _ (m - 1)) fun i hi => ?_).mpr hQf
      simp only [lookup_tuple, shift_deacrease hi, deacrease_mem_range h1 hk hi]
    · exact List.ne_nil_of_mem (hf k ⟨h1, by omega⟩)
  · rintro ⟨⟨f, hf, hQf⟩, hrows⟩
    obtain ⟨r, hr⟩ := List.exists_mem_of_ne_nil _ hrows
    refine ⟨fun i => if i = k then r else f (deacrease i [k]), fun i hi => ?_, ?_⟩
    · dsimp only
      split
      · next hik => rw [hik]; exact hr
      · next hik =>
        obtain ⟨hd1, hdm⟩ := (deacrease_mem_range h1 hk hik).mpr ⟨hi.1, by omega⟩
        have hmem := hf (deacrease i [k]) ⟨hd1, by omega⟩
        rw [getD_eraseIdx tables h1 hd1, shift_deacrease hik] at hmem
        exact hmem
    · refine (hQ (tuple _ m) (tuple f (m - 1)) fun i hi => ?_).mp hQf
      simp only [lookup_tuple, if_neg hi, deacrease_mem_range h1 hk hi]

/-! ### One table -/

theorem evalQuery_ne_nil {targetList rtable : List (Node α)} {fromlist : List Nat} {quals : Node α}
    {ρ : Env α} : evalQuery I D (.query targetList rtable fromlist quals) ρ ≠ [] ↔
      ∃ z ∈ combinations (evalRtable I D rtable (ρ.push [])) fromlist,
        evalCond I D quals (ρ.push z) = .true := by
  rw [evalQuery, ne_eq, List.map_eq_nil_iff, List.filter_eq_nil_iff]
  push Not
  simp only [decide_eq_true_eq]

/-- The added EXISTS asks for a row of the table. -/
theorem evalCond_exists_single {targetList : List (Node α)} {rte : Node α} (h : Closed rte)
    {ρ ρ' : Env α} (hparam : ρ.param = ρ'.param) :
    evalCond I D (.subLink .existsSublink .null (.query targetList [rte] [1] .null)) ρ = .true ↔
      evalRte I D rte ρ' ≠ [] := by
  rw [evalCond_exists_eq_true]
  simp only [evalRtable, combinations_cons,
    h I D (show (ρ.push []).param = ρ'.param from hparam), evalCond, and_true]
  simp [combinations, List.sections, List.eq_nil_iff_forall_not_mem]

/-- What the loop keeps of the query: `ks` are the tables that are still to be taken out. -/
structure Ready (ks : List Nat) (targetList rtable : List (Node α)) (quals : Node α) : Prop where
  entries : Node.areExpressions targetList = true
  closed : ∀ rte ∈ rtable, Closed rte
  nodup : ks.Nodup
  inFrom : ∀ k ∈ ks, 1 ≤ k ∧ k ≤ rtable.length
  rest : ks.length < rtable.length
  untouched : Untouched ks quals

/-- A round of the loop. -/
theorem rewriteConnexe_ready {k : Nat} {ks : List Nat} {targetList rtable : List (Node α)}
    {quals : Node α} (h : Ready (k :: ks) targetList rtable quals) :
    ∃ targetList' rtable' quals',
      rewriteConnexe [k] (.query targetList rtable (List.range' 1 rtable.length) quals) =
        some (.query targetList' rtable' (List.range' 1 rtable'.length) quals') ∧
      Ready (ks.map (deacrease · [k])) targetList' rtable' quals' ∧
      ∀ I D (ρ : Env α),
        evalQuery I D (.query targetList' rtable' (List.range' 1 rtable'.length) quals') ρ ≠ [] ↔
          evalQuery I D (.query targetList rtable (List.range' 1 rtable.length) quals) ρ ≠ [] := by
  obtain ⟨hentries, hclosed, hnodup, hfrom, hrest, huntouched⟩ := h
  rw [List.nodup_cons] at hnodup
  rw [List.forall_mem_cons] at hfrom
  rw [List.length_cons] at hrest
  obtain ⟨⟨h1, hk⟩, hfrom⟩ := hfrom
  obtain ⟨rte, hrte⟩ : ∃ rte, rtable[k - 1]? = some rte :=
    ⟨_, List.getElem?_eq_getElem (by omega)⟩
  have hclosedRte := hclosed rte (List.mem_of_getElem? hrte)
  have hlen : (rtable.eraseIdx (k - 1)).length = rtable.length - 1 :=
    List.length_eraseIdx_of_lt (by omega)
  have havoids : Avoids [k] (columnsOf quals) := fun v hv h0 hmem =>
    huntouched.avoids v hv h0 (by simp [List.mem_singleton.mp hmem])
  have hround := @rewriteConnexe_single _ k targetList rtable (List.range' 1 rtable.length) _ _ _ _
    hentries (captures_avoids huntouched.isExpression havoids) huntouched.isExpression hrte
  rw [substract_range (show 1 < rtable.length by omega), ← hlen] at hround
  refine ⟨_, _, _, hround, ?_, fun I D ρ => ?_⟩
  · have hks : ∀ j ∈ ks, j ≠ k := by
      rintro j hj rfl
      exact hnodup.1 hj
    refine ⟨areExpressions_keptTargets _ hentries,
      fun rte' h' => hclosed rte' (List.mem_of_mem_eraseIdx h'), ?_, ?_, ?_, ?_⟩
    · exact hnodup.2.map_on fun i hi j hj => deacrease_inj (hks i hi) (hks j hj)
    · intro j hj
      obtain ⟨i, hi, rfl⟩ := List.mem_map.mp hj
      rw [hlen]
      exact (deacrease_mem_range h1 hk (hks i hi)).mpr (hfrom i hi)
    · rw [List.length_map, hlen]
      omega
    · refine .and (List.forall_mem_cons.mpr ⟨huntouched.renumber hnodup.1,
        List.forall_mem_cons.mpr ⟨.exist hclosedRte, by simp⟩⟩)
  · have hsame : ∀ z z', Shifts k z z' →
        (evalCond I D (mapColumns (renumberVar [k]) quals) (ρ.push z') = .true ↔
          evalCond I D quals (ρ.push z) = .true) := fun z z' hz => by
      rw [huntouched.evalCond_renumber ρ hz]
    rw [evalQuery_ne_nil, evalQuery_ne_nil, hlen, evalRtable_eq_map, evalRtable_eq_map,
      exists_combination_shift h1 hk hsame, List.eraseIdx_map]
    have hrows : (rtable.map fun node => evalRte I D node (ρ.push [])).getD (k - 1) [] =
        evalRte I D rte (ρ.push []) := by
      simp [List.getD_eq_getElem?_getD, hrte]
    have hexists : ∀ z, evalCond I D (addedExists [k] targetList [rte]
        (makeTempContextConnexRew [k]).listConstraint) (ρ.push z) = .true ↔
          evalRte I D rte (ρ.push []) ≠ [] := fun z => evalCond_exists_single hclosedRte rfl
    rw [hrows]
    simp only [evalCond_and_eq_true, List.forall_mem_cons, List.not_mem_nil, false_implies,
      implies_true, and_true, hexists]
    constructor
    · rintro ⟨z, hz, hq, hr⟩
      exact ⟨⟨z, hz, hq⟩, hr⟩
    · rintro ⟨⟨z, hz, hq⟩, hr⟩
      exact ⟨z, hz, hq, hr⟩

/-! ### The loop -/

theorem rewriteLoop_ready {ks : List Nat} {targetList rtable : List (Node α)} {quals : Node α}
    (h : Ready ks targetList rtable quals) :
    ∃ q', rewriteLoop ks.length (ks.map ([·]))
        (.query targetList rtable (List.range' 1 rtable.length) quals) = some q' ∧
      ∀ I D (ρ : Env α), evalQuery I D q' ρ ≠ [] ↔
        evalQuery I D (.query targetList rtable (List.range' 1 rtable.length) quals) ρ ≠ [] := by
  generalize hrounds : ks.length = rounds
  induction rounds generalizing ks targetList rtable quals with
  | zero =>
    obtain rfl := List.eq_nil_of_length_eq_zero hrounds
    exact ⟨_, rfl, fun _ _ _ => Iff.rfl⟩
  | succ rounds ih =>
    obtain ⟨k, ks, rfl⟩ := List.exists_cons_of_length_eq_add_one hrounds
    obtain ⟨targetList', rtable', quals', hround, hready, hrows⟩ := rewriteConnexe_ready h
    obtain ⟨q', hloop, hrows'⟩ := ih hready (by simpa using hrounds)
    have hlist : (ks.map ([·])).map (fun compo => compo.map (deacrease · [k])) =
        (ks.map (deacrease · [k])).map ([·]) := by
      simp [Function.comp_def]
    refine ⟨q', ?_, fun I D ρ => (hrows' I D ρ).trans (hrows I D ρ)⟩
    rw [List.map_cons, rewriteLoop, hround, hlist]
    exact hloop

theorem Linking.kept {n : Nat} {a : Node α} (h : Linking n a) : Self.Kept a := by
  obtain ⟨_, _, _, hne⟩ := h
  exact .linking hne

theorem myModifierSelf_where {n : Nat} {quals : Node α} (h : Where n quals) :
    ∃ context, mutate Self.myModifierSelf quals Self.makeContextOptimizerSelf =
      some (quals, context) ∧ context.alreadyConstrainRel = [] := by
  obtain ⟨table, hquals⟩ : ∃ tableToAdd, mutate Self.myModifierSelf quals
    Self.makeContextOptimizerSelf =
      some (quals, { Self.makeContextOptimizerSelf with tableToAdd }) := by
    cases h with
    | none => exact ⟨none, rfl⟩
    | one ha => exact Self.modify_kept Self.quiet_make ha.kept
    | and hargs => exact Self.modify_and (fun a ha => (hargs a ha).imp_right Linking.kept)
  exact ⟨_, hquals, rfl⟩

/-- `optimize_self_constraint` has nothing left to move. -/
theorem optimizeSelfConstraint_where {n : Nat} {targetList rtable : List (Node α)}
    {fromlist : List Nat} {quals : Node α} (h : Where n quals) :
    Self.optimizeSelfConstraint (.query targetList rtable fromlist quals) =
      some (.query targetList rtable fromlist quals) := by
  obtain ⟨context, hquals, hnone⟩ := myModifierSelf_where h
  simp [Self.optimizeSelfConstraint, hquals, hnone, Self.rewriteSelf]

/-- No comparison mentions a table that is a component of its own. -/
theorem avoids_where {n : Nat} {ctx : ContextExists} (hpart : Partitions n ctx) {quals : Node α}
    (h : Where n quals) (hlinked : ∀ a ∈ conjuncts quals, LinkedNode ctx a) {ks : List Nat}
    (hks : ∀ k ∈ ks, [k] ∈ ctx.listComposantesConnexes) : Avoids ks (columnsOf quals) := by
  have hone : ∀ a : Node α, Linking n a → LinkedNode ctx a → Avoids ks (columnsOf a) := by
    intro a ha hl
    have hwithout := fun k hk => without_of_singleton hpart (hks k hk) ha hl
    obtain ⟨_, _, _, _⟩ := ha
    simp only [Avoids, columnsOf, columnsOfList, List.cons_append, List.nil_append,
      List.forall_mem_cons]
    exact ⟨fun hv hk => (hwithout _ hk _ _ _ rfl).1 hv rfl,
      fun hw hk => (hwithout _ hk _ _ _ rfl).2 hw rfl, by simp⟩
  cases h with
  | none => simp [Avoids, columnsOf]
  | one ha =>
    refine hone quals ha ?_
    obtain ⟨_, _, _, _⟩ := ha
    exact hlinked _ (by simp [conjuncts])
  | and hargs =>
    intro v hv
    obtain ⟨a, ha, hva⟩ := mem_columnsOfList.mp hv
    rcases hargs a ha with rfl | hlink
    · simp [columnsOf] at hva
    · exact hone a hlink (hlinked a ha) v hva

theorem Linking.plain {n : Nat} {a : Node α} (h : Linking n a) :
    a.isExpression = true ∧ innerColumns a = [] := by
  obtain ⟨_, _, _, _⟩ := h
  exact ⟨rfl, rfl⟩

theorem Where.plain {n : Nat} {quals : Node α} (h : Where n quals) :
    quals.isExpression = true ∧ innerColumns quals = [] := by
  cases h with
  | none => exact ⟨rfl, rfl⟩
  | one ha => exact ha.plain
  | @and args hargs =>
    have hplain : ∀ a ∈ args, a.isExpression = true ∧ innerColumns a = [] := by
      intro a ha
      rcases hargs a ha with rfl | hlink
      · exact ⟨rfl, rfl⟩
      · exact hlink.plain
    refine ⟨Node.areExpressions_iff.mpr fun a ha => (hplain a ha).1,
      List.eq_nil_iff_forall_not_mem.mpr fun v hv => ?_⟩
    obtain ⟨a, ha, hva⟩ := mem_innerColumnsList.mp hv
    rw [(hplain a ha).2] at hva
    cases hva

/-- On a sub-select as `optimize_self_constraint` leaves it, in which every component is a single
table and some table is restricted by an enclosing query, `optimize_exist` returns a sub-select that
has a row exactly when the given one has. -/
theorem optimizeExist_hasRows {targetList rtable : List (Node α)} {quals : Node α}
    (htarget : Node.areExpressions targetList = true) (hfrom : ∀ rte ∈ rtable, Closed rte)
    (hwhere : Where rtable.length quals)
    (hsingle : ∀ c ∈ (components rtable.length quals).listComposantesConnexes, c.length = 1)
    (hsub : (components rtable.length quals).composanteConnexeSubLevel ≠ []) :
    ∃ q', optimizeExist (.query targetList rtable (List.range' 1 rtable.length) quals) = some q' ∧
      ∀ I D (ρ : Env α), evalQuery I D q' ρ ≠ [] ↔
        evalQuery I D (.query targetList rtable (List.range' 1 rtable.length) quals) ρ ≠ [] := by
  obtain ⟨ctx, hwalk, hpart, hlinked⟩ := walk_where hwhere
  have hctx : components rtable.length quals = ctx := by rw [components, hwalk]
  rw [hctx] at hsingle hsub
  obtain ⟨ks, hks⟩ : ∃ ks : List Nat, ctx.listComposantesConnexes = ks.map ([·]) :=
    ⟨_, eq_map_flatten hsingle⟩
  have hflatten : ctx.listComposantesConnexes.flatten = ks := by
    rw [hks]
    simp [List.flatten_eq_flatMap, List.flatMap_map]
  have hperm : (ctx.composanteConnexeSubLevel ++ ks).Perm (List.range' 1 rtable.length) :=
    hflatten ▸ hpart
  have hlen := hperm.length_eq
  rw [List.length_append, List.length_range'] at hlen
  have hpos := List.length_pos_iff.mpr hsub
  have hready : Ready ks targetList rtable quals := by
    refine ⟨htarget, hfrom, (List.nodup_append.mp (hperm.nodup_iff.mpr List.nodup_range')).2.1,
      fun k hk => ?_, by omega, .condition hwhere.plain.1
        (avoids_where hpart hwhere hlinked fun k hk => hks ▸ List.mem_map_of_mem hk) ?_⟩
    · have := List.mem_range'_1.mp (hperm.mem_iff.mp (List.mem_append_right _ hk))
      omega
    · simp [hwhere.plain.2]
  obtain ⟨q', hloop, hrows⟩ := rewriteLoop_ready hready
  refine ⟨q', ?_, hrows⟩
  have hne : (Node.query targetList rtable (List.range' 1 rtable.length) quals).rtable ≠ [] :=
    List.length_pos_iff.mp (by simp only [Node.rtable]; omega)
  simp only [optimizeExist, optimizeSelfConstraint_where hwhere, Option.bind_eq_bind,
    Option.bind_some, connexes_eq hne, Node.rtable, Node.quals, hctx, rewriteComponents, hks,
    List.length_map]
  exact hloop

/-- The FROM of `SELECT * FROM r, s, (SELECT * FROM t WHERE t.a = 1) a1 WHERE s.a = o.a`, in which
`o` is a table of the enclosing query. -/
def threeTables : List (Node Int) := [baseTable 1, baseTable 2, .rangeTblEntry .rteSubquery 3
  (Self.createFromQuery (baseTable 3) (.opExpr 96 [.var ⟨1, 1, 0⟩, .const (some 1)])
    (targetEntries 1 [⟨1, 1, 0⟩]))]

/-- Of three tables the second is restricted by the enclosing query, and the others become
EXISTS. -/
theorem optimizeExist_hasRows_threeTables :
    (components 3 (.opExpr 96 [.var ⟨2, 1, 0⟩, .var ⟨1, 1, 1⟩] : Node Int)).listComposantesConnexes
        = [[1], [3]] ∧
      ∃ q', optimizeExist (.query [] threeTables [1, 2, 3]
          (.opExpr 96 [.var ⟨2, 1, 0⟩, .var ⟨1, 1, 1⟩])) = some q' ∧
        ∀ I D (ρ : Env Int), evalQuery I D q' ρ ≠ [] ↔
          evalQuery I D (.query [] threeTables [1, 2, 3]
            (.opExpr 96 [.var ⟨2, 1, 0⟩, .var ⟨1, 1, 1⟩])) ρ ≠ [] := by
  have hlinking : Linking 3 (.opExpr 96 [.var ⟨2, 1, 0⟩, .var ⟨1, 1, 1⟩] : Node Int) :=
    .mk (fun _ => by decide) (fun h => by cases h) (.inl rfl) (by decide)
  have hclosed : ∀ rte ∈ threeTables, Closed rte := by
    simp only [threeTables, List.forall_mem_cons]
    exact ⟨closed_of_references rfl, closed_of_references rfl, closed_of_references rfl, by simp⟩
  exact ⟨by decide, optimizeExist_hasRows rfl hclosed (.one hlinking) (by decide) (by decide)⟩

end Infed.Exist
