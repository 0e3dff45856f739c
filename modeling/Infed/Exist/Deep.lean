import Infed.Exist.Cells
import Infed.Exist.Deletions
import Infed.Exist.Preserves
import Infed.Multiplicity
import Infed.Self.Attached

/-! `mutator_exist_deep`: every sub-select of a WHERE, and inside it every one again, is rewritten
as if only its being empty mattered, whatever sub-link it hangs from.  A sub-select from which a
table is taken out does not return its rows as often as before. -/

namespace Infed.Exist

variable {α : Type} {c : List Nat}

/-! ### FROM -/

def IsQuery (q : Node α) : Prop :=
  ∃ targetList rtable fromlist quals, q = .query targetList rtable fromlist quals

theorem ne_nil_renumbered {L : List (List Nat)} (hL : ∀ c' ∈ c :: L, c' ≠ []) :
    ∀ c' ∈ L.map fun compo => compo.map (deacrease · c), c' ≠ [] := by
  intro c' hc'
  obtain ⟨compo, hcompo, rfl⟩ := List.mem_map.mp hc'
  exact fun hnil => hL compo (List.mem_cons_of_mem _ hcompo) (List.map_eq_nil_iff.mp hnil)

/-- What each round keeps, the loop keeps. -/
theorem rewriteLoop_keeps {P : Node α → Prop}
    (hround : ∀ c q q', c ≠ [] → rewriteConnexe c q = some q' → P q → P q') {rounds : Nat}
    {L : List (List Nat)} (hL : ∀ c ∈ L, c ≠ []) {q q' : Node α}
    (h : rewriteLoop rounds L q = some q') (hq : P q) : P q' := by
  induction rounds generalizing L q with
  | zero =>
    cases L with
    | nil =>
      cases h
      exact hq
    | cons => cases h
  | succ rounds ih =>
    cases L with
    | nil =>
      cases h
      exact hq
    | cons c L =>
      obtain ⟨q1, hfirst, hloop⟩ := Option.bind_eq_some_iff.mp h
      exact ih (ne_nil_renumbered hL) hloop (hround c q q1 (hL c List.mem_cons_self) hfirst hq)

theorem isQuery_rewriteConnexe {q q' : Node α} (h : rewriteConnexe c q = some q') :
    IsQuery q' := by
  unfold rewriteConnexe at h
  split at h
  · simp only [Option.bind_eq_bind, Option.bind_eq_some_iff] at h
    obtain ⟨_, _, _, _, _, _, _, _, _, _, _, _, hq'⟩ := h
    cases hq'
    exact ⟨_, _, _, _, rfl⟩
  · cases h

theorem isQuery_rewriteLoop {rounds : Nat} {L : List (List Nat)} (hL : ∀ c ∈ L, c ≠ [])
    {q q' : Node α} (h : rewriteLoop rounds L q = some q') (hq : IsQuery q) : IsQuery q' :=
  rewriteLoop_keeps (fun _ _ _ _ hround _ => isQuery_rewriteConnexe hround) hL h hq

/-- The FROM references are those of a query over comma-joined tables, or nothing is left for them
to refer to. -/
def InOrder (q : Node α) : Prop :=
  q.fromlist = List.range' 1 q.rtable.length ∨ q.rtable = [] ∧ q.fromlist ≠ []

theorem rewriteConnexe_from {q q' : Node α} (h : rewriteConnexe c q = some q') :
    deleteRtes c 0 q.rtable = some q'.rtable ∧ q'.fromlist = substract q.fromlist c.length := by
  unfold rewriteConnexe at h
  split at h
  · simp only [Option.bind_eq_bind, Option.bind_eq_some_iff] at h
    obtain ⟨_, _, _, _, _, _, rtable', hdelete, _, _, _, _, hq'⟩ := h
    cases hq'
    exact ⟨hdelete, rfl⟩
  · cases h

/-- One round takes as many entries out of FROM as the component has tables. -/
theorem rewriteConnexe_shrinks {q q' : Node α} (h : rewriteConnexe c q = some q')
    (hq : InOrder q) (hc : c ≠ []) :
    InOrder q' ∧ q'.rtable.Sublist q.rtable ∧ q'.rtable.length < q.rtable.length := by
  obtain ⟨hdelete, hfromlist⟩ := rewriteConnexe_from h
  obtain ⟨hsublist, hlength⟩ := deleteRtes_sublist hdelete
  have hpos := List.length_pos_iff.mpr hc
  refine ⟨?_, hsublist, by omega⟩
  rcases hq with hq | ⟨hq, _⟩
  · rw [hq] at hfromlist
    by_cases hlt : c.length < q.rtable.length
    · left
      rw [hfromlist, substract_range hlt]
      congr 1
      omega
    · right
      refine ⟨List.length_eq_zero_iff.mp (by omega), ?_⟩
      rw [hfromlist]
      refine substract_ne_nil (fun hnil => ?_) _
      have hzero := congrArg List.length hnil
      rw [List.length_range', List.length_nil] at hzero
      omega
  · rw [hq, List.length_nil] at hlength
    omega

theorem rewriteLoop_shrinks {rounds : Nat} {L : List (List Nat)} {q q' : Node α}
    (h : rewriteLoop rounds L q = some q') (hq : InOrder q) (hL : ∀ c ∈ L, c ≠ []) :
    InOrder q' ∧ q'.rtable.Sublist q.rtable ∧
      (L ≠ [] → q'.rtable.length < q.rtable.length) := by
  cases L with
  | nil =>
    obtain rfl : q = q' := by cases rounds <;> exact Option.some.inj h
    exact ⟨hq, List.Sublist.refl _, fun hne => absurd rfl hne⟩
  | cons c L =>
    cases rounds with
    | zero => cases h
    | succ rounds =>
      obtain ⟨q1, hfirst, hloop⟩ := Option.bind_eq_some_iff.mp h
      obtain ⟨hq1, hsub1, hlt⟩ := rewriteConnexe_shrinks hfirst hq (hL c List.mem_cons_self)
      -- the later rounds shorten the range table further, if anything
      obtain ⟨hq', hsub'⟩ : InOrder q' ∧ q'.rtable.Sublist q1.rtable := by
        refine rewriteLoop_keeps (P := fun q2 => InOrder q2 ∧ q2.rtable.Sublist q1.rtable)
          (fun c2 q2 q3 hc2 hround h2 => ?_) (ne_nil_renumbered hL) hloop
          ⟨hq1, List.Sublist.refl _⟩
        obtain ⟨h3, hsub3, _⟩ := rewriteConnexe_shrinks hround h2.1 hc2
        exact ⟨h3, hsub3.trans h2.2⟩
      exact ⟨hq', hsub'.trans hsub1, fun _ => Nat.lt_of_le_of_lt hsub'.length_le hlt⟩

/-! ### Weights -/

/-- A table replaced with a sub-select over it is taken as often as before. -/
theorem weight_toSubquery (rte constraint : Node α) (entries : List (Node α)) :
    weight (Self.toSubquery (Self.createFromQuery rte constraint entries) rte) = weight rte := by
  cases rte with
  | rangeTblEntry kind relid subquery =>
    rw [Self.toSubquery, Self.createFromQuery, weight, weight]
    rfl
  | _ => rfl

theorem weights_rewriteSelf {targetList ts rtable rtable' : List (Node α)}
    (h : Self.rewriteSelf targetList ts rtable = some rtable') :
    rtable'.map weight = rtable.map weight := by
  induction ts generalizing rtable with
  | nil =>
    cases h
    rfl
  | cons t ts ih =>
    simp only [Self.rewriteSelf, Option.bind_eq_bind, Option.bind_eq_some_iff] at h
    obtain ⟨_, _, _, _, rte, hrte, hrest⟩ := h
    rw [ih hrest, List.map_set, weight_toSubquery]
    obtain ⟨hlt, rfl⟩ := List.getElem?_eq_some_iff.mp hrte
    rw [← List.getElem_map weight (h := by simpa using hlt), List.set_getElem_self]

/-- `optimize_self_constraint` on FROM. -/
theorem optimizeSelfConstraint_from {q q' : Node α} (h : Self.optimizeSelfConstraint q = some q') :
    IsQuery q' ∧ q'.fromlist = q.fromlist ∧ q'.rtable.map weight = q.rtable.map weight := by
  unfold Self.optimizeSelfConstraint at h
  split at h
  · simp only [Option.bind_eq_bind, Option.bind_eq_some_iff] at h
    obtain ⟨_, _, rtable', hrewrite, hq'⟩ := h
    cases hq'
    exact ⟨⟨_, _, _, _, rfl⟩, rfl, weights_rewriteSelf hrewrite⟩
  · cases h

/-- Both queries return the same bag of rows for every database and every outer row. -/
def SameRows (I : Interp α) (s s' : Node α) : Prop :=
  ∀ D ρ, (evalQuery I D s' ρ).Perm (evalQuery I D s ρ)

/-- A sub-select over comma-joined FROM entries, in each of which there is a table, that returns a
row on some database. -/
structure Productive (I : Interp α) (s : Node α) : Prop where
  fromlist : s.fromlist = List.range' 1 s.rtable.length
  tables : ∀ rte ∈ s.rtable, 0 < weight rte
  row : ∃ D ρ, evalQuery I D s ρ ≠ []

theorem isQuery_of_row {I : Interp α} {D : Database α} {q : Node α} {ρ : Env α}
    (h : evalQuery I D q ρ ≠ []) : IsQuery q := by
  cases q with
  | query targetList rtable fromlist quals => exact ⟨_, _, _, _, rfl⟩
  | _ => exact absurd rfl h

/-- References to nothing give no row. -/
theorem evalQuery_dangling (I : Interp α) (D : Database α) (targetList : List (Node α))
    {fromlist : List Nat} (h : fromlist ≠ []) (quals : Node α) (ρ : Env α) :
    evalQuery I D (.query targetList [] fromlist quals) ρ = [] := by
  obtain ⟨i, fromlist, rfl⟩ := List.exists_cons_of_ne_nil h
  rw [evalQuery, evalRtable, combinations_cons]
  simp

theorem weight_inOrder (targetList rtable : List (Node α)) (quals : Node α) :
    weight (.query targetList rtable (List.range' 1 rtable.length) quals) =
      totalAll (rtable.map weight) := by
  rw [weight, weights_eq_map, totalAll, List.length_map]

/-- If the sub-select returns the same rows as before, no component has been taken out of it. -/
theorem components_eq_nil {I : Interp α} {s nq s' : Node α} (hs : Productive I s)
    (hfrom : nq.fromlist = s.fromlist) (hweights : nq.rtable.map weight = s.rtable.map weight)
    {L : List (List Nat)} (hL : ∀ c ∈ L, c ≠ []) (hrun : rewriteComponents L nq = some s')
    (hrows : SameRows I s s') : L = [] := by
  obtain ⟨hfromlist, htables, D, ρ, hrow⟩ := hs
  obtain ⟨targetList, rtable, fromlist, quals, rfl⟩ := isQuery_of_row hrow
  change nq.rtable.map weight = rtable.map weight at hweights
  have hlength : nq.rtable.length = rtable.length := by
    simpa using congrArg List.length hweights
  have horder : InOrder nq := .inl (hfrom.trans (hlength ▸ hfromlist))
  obtain ⟨horder', hsublist, hshorter⟩ := rewriteLoop_shrinks hrun horder hL
  have hrow' : evalQuery I D s' ρ ≠ [] := fun hnil => hrow ((hnil ▸ hrows D ρ).nil_eq).symm
  obtain ⟨targetList', rtable', fromlist', quals', rfl⟩ := isQuery_of_row hrow'
  change rtable'.Sublist nq.rtable at hsublist
  change _ → rtable'.length < nq.rtable.length at hshorter
  have hfull : fromlist' = List.range' 1 rtable'.length := by
    rcases horder' with hfull | ⟨hnone, hne⟩
    · exact hfull
    · cases hnone
      exact absurd (evalQuery_dangling I D _ hne _ ρ) hrow'
  have hweight := weight_eq_of_perm hrows hrow
  change fromlist = _ at hfromlist
  rw [hfull, hfromlist, Node.rtable, weight_inOrder, weight_inOrder] at hweight
  -- fewer entries would weigh less
  by_contra hne
  have hlt : totalAll (rtable'.map weight) < totalAll (nq.rtable.map weight) := by
    refine totalAll_lt (hsublist.map weight) (by simpa using hshorter hne) ?_
    rw [hweights]
    intro w hw
    obtain ⟨rte, hrte, rfl⟩ := List.mem_map.mp hw
    exact htables rte hrte
  rw [hweights] at hlt
  exact absurd hweight (Nat.ne_of_lt hlt)

namespace Cells

open CellList

/-! ### The pass -/

/-- The components of a query.  Its range table is asked for its length, and NIL has none. -/
def connexes (nq : Node α) : Option (List (List Nat)) :=
  match nq.rtable with
  | [] => none
  | rtable => do
    let ctx ← (walk createConnexe nq.quals (makeContextExists rtable.length)).2
    ctx.listComposantesConnexes.mapM ctx.heap.foreach

def optimizeExist (nq : Node α) : Option (Node α) := do
  let nq ← Self.optimizeSelfConstraint nq
  let list ← connexes nq
  rewriteComponents list nq

/-- One call of `mutator_exist_deep`.  The sub-select is rewritten in place, which is the same for
sub-selects that stand in one place of the query. -/
def mutatorExistDeep : Mutator α Unit
  | .null, _, context => some (.null, context)
  | .query _ _ _ _, traverse, context => do
    let (q, context) ← traverse context
    let q ← optimizeExist q
    some (q, context)
  | _, traverse, context => traverse context

/-- `optimize_exist_deep`, which starts with the `jointree` of the query. -/
def optimizeExistDeep : Node α → Option (Node α)
  | .query targetList rtable fromlist quals => do
    -- the copy is not kept, but the sub-selects in it are those of the query, changed in place
    let (quals, _) ← mutate mutatorExistDeep quals ()
    some (.query targetList rtable fromlist quals)
  | _ => none

theorem connexes_of_ne_nil {nq : Node α} (h : nq.rtable ≠ []) :
    connexes nq = (walk createConnexe nq.quals (makeContextExists nq.rtable.length)).2.bind
      fun ctx => ctx.listComposantesConnexes.mapM ctx.heap.foreach := by
  unfold connexes
  split
  · next hnil => exact absurd hnil h
  · rfl

/-- What a sub-select becomes. -/
def rewritten (s : Node α) : Option (Node α) := (mutate mutatorExistDeep s ()).map Prod.fst

/-- The sub-select before components are taken out: its own sub-selects have been rewritten, and
`optimize_self_constraint` has moved constraints. -/
def prepared : Node α → Option (Node α)
  | .query targetList rtable fromlist quals => do
    let quals ← rewritten quals
    Self.optimizeSelfConstraint (.query targetList rtable fromlist quals)
  | _ => none

theorem rewritten_query (targetList rtable : List (Node α)) (fromlist : List Nat)
    (quals : Node α) :
    rewritten (.query targetList rtable fromlist quals) =
      (prepared (.query targetList rtable fromlist quals)).bind fun nq =>
        (connexes nq).bind fun list => rewriteComponents list nq := by
  rw [rewritten, mutate, mutatorExistDeep, prepared, rewritten]
  cases mutate mutatorExistDeep quals () with
  | none => rfl
  | some p =>
    simp only [Option.bind_eq_bind, Option.bind_some, optimizeExist, Option.map_some]
    cases Self.optimizeSelfConstraint (.query targetList rtable fromlist p.1) with
    | none => rfl
    | some nq =>
      simp only [Option.bind_some]
      cases connexes nq with
      | none => rfl
      | some list =>
        simp only [Option.bind_some]
        cases rewriteComponents list nq <;> rfl

theorem rewritten_eq_some {a a' : Node α} {u u' : Unit}
    (h : mutate mutatorExistDeep a u = some (a', u')) : rewritten a = some a' := by
  cases u
  rw [rewritten, h, Option.map_some]

/-! ### Components -/

/-- No component is NULL. -/
def NoNull (ctx : ContextExists) : Prop := ∀ compo ∈ ctx.listComposantesConnexes, compo ≠ none

theorem withoutVarno_subset {heap : Heap Nat} {varno : Nat} {compos rest : List ListPtr}
    (h : withoutVarno heap varno compos = some rest) : ∀ compo ∈ rest, compo ∈ compos := by
  induction compos generalizing rest with
  | nil =>
    cases h
    simp
  | cons compo compos ih =>
    obtain ⟨isIn, _, h⟩ := Option.bind_eq_some_iff.mp h
    obtain ⟨rest', hrest, h⟩ := Option.bind_eq_some_iff.mp h
    cases h
    intro p hp
    split at hp
    · exact List.mem_cons_of_mem _ (ih hrest p hp)
    · rcases List.mem_cons.mp hp with rfl | hp
      · exact List.mem_cons_self
      · exact List.mem_cons_of_mem _ (ih hrest p hp)

theorem NoNull.removeFromList {ctx ctx' : ContextExists} {varno : Nat} (h : NoNull ctx)
    (hrun : ctx.removeFromList varno = some ctx') : NoNull ctx' := by
  obtain ⟨rest, hrest, hrun⟩ := Option.bind_eq_some_iff.mp hrun
  cases hrun
  exact fun compo hcompo => h compo (withoutVarno_subset hrest compo hcompo)

theorem NoNull.toSubLevel {ctx ctx' : ContextExists} {varno : Nat} (h : NoNull ctx)
    (hrun : ctx.toSubLevel varno = some ctx') : NoNull ctx' := by
  obtain ⟨b, _, hrun⟩ := Option.bind_eq_some_iff.mp hrun
  obtain ⟨⟨heap, p⟩, _, hrun⟩ := Option.bind_eq_some_iff.mp hrun
  have hsame : NoNull { ctx with heap := heap, composanteConnexeSubLevel := p } := h
  exact hsame.removeFromList hrun

/-- Two different pointers are not both NULL, and so the list that they become is not. -/
theorem listConcat_ne_none {heap heap' : Heap Nat} {a b compo : ListPtr} (hne : a ≠ b)
    (h : heap.listConcat a b = some (heap', compo)) : compo ≠ none := by
  cases a with
  | none =>
    cases h
    exact hne.symm
  | some p =>
    cases b with
    | none =>
      cases h
      simp
    | some q =>
      rw [Heap.listConcat] at h
      split at h
      · cases h
      · simp only [Option.bind_eq_bind, Option.bind_eq_some_iff] at h
        obtain ⟨_, _, _, _, _, _, h⟩ := h
        cases h
        simp

theorem NoNull.join {ctx ctx' : ContextExists} {varno varno' : Nat} (h : NoNull ctx)
    (hrun : ctx.join varno varno' = some ctx') : NoNull ctx' := by
  obtain ⟨a, _, hrun⟩ := Option.bind_eq_some_iff.mp hrun
  obtain ⟨b, _, hrun⟩ := Option.bind_eq_some_iff.mp hrun
  split at hrun
  · cases hrun
    exact h
  · next hne =>
    obtain ⟨ctx1, hctx1, hrun⟩ := Option.bind_eq_some_iff.mp hrun
    obtain ⟨ctx2, hctx2, hrun⟩ := Option.bind_eq_some_iff.mp hrun
    obtain ⟨⟨heap, compo⟩, hconcat, hrun⟩ := Option.bind_eq_some_iff.mp hrun
    cases hrun
    intro p hp
    rcases List.mem_append.mp hp with hp | hp
    · exact (h.removeFromList hctx1).removeFromList hctx2 p hp
    · rw [List.mem_singleton.mp hp]
      exact listConcat_ne_none hne hconcat

theorem NoNull.enterVar {ctx ctx' : ContextExists} {v : Var} (h : NoNull ctx)
    (hrun : ctx.enterVar v = some ctx') : NoNull ctx' := by
  unfold ContextExists.enterVar at hrun
  split at hrun
  · dsimp only at hrun
    split at hrun <;>
      · obtain ⟨restricted, _, hrun⟩ := Option.bind_eq_some_iff.mp hrun
        cases hrun
        exact h
  · obtain ⟨sub, _, hrun⟩ := Option.bind_eq_some_iff.mp hrun
    split at hrun
    · cases hrun
      exact h
    · split at hrun
      · exact h.toSubLevel hrun
      · split at hrun
        · exact h.toSubLevel hrun
        · exact h.join hrun

theorem noNull_read {l : List (Option Var)} {ctx : Option ContextExists} {ctx' : ContextExists}
    (h : ∀ c, ctx = some c → NoNull c) (hrun : l.foldl read ctx = some ctx') : NoNull ctx' := by
  induction l generalizing ctx with
  | nil => exact h ctx' hrun
  | cons e l ih =>
    refine ih (fun c hc => ?_) hrun
    cases e with
    | none =>
      obtain ⟨c1, hc1, rfl⟩ := Option.map_eq_some_iff.mp hc
      exact h c1 hc1
    | some v =>
      obtain ⟨c1, hc1, henter⟩ := Option.bind_eq_some_iff.mp hc
      exact (h c1 hc1).enterVar henter

theorem NoNull.addVarno {c c' : ContextExists} {i : Nat} (h : NoNull c)
    (hadd : Cells.addVarno c i = some c') : NoNull c' := by
  rw [Cells.addVarno] at hadd
  obtain ⟨⟨heap, tmp⟩, happend, hadd⟩ := Option.bind_eq_some_iff.mp hadd
  cases hadd
  cases happend
  intro p hp
  rcases List.mem_append.mp hp with hp | hp
  · exact h p hp
  · rw [List.mem_singleton.mp hp]
    simp

theorem NoNull.addVarnos {c c' : ContextExists} {ns : List Nat} (h : NoNull c)
    (hrun : ns.foldlM Cells.addVarno c = some c') : NoNull c' := by
  induction ns generalizing c with
  | nil =>
    cases hrun
    exact h
  | cons i ns ih =>
    rw [List.foldlM_cons] at hrun
    obtain ⟨c1, hadd, hrun⟩ := Option.bind_eq_some_iff.mp hrun
    exact ih (h.addVarno hadd) hrun

theorem noNull_make {n : Nat} {ctx : ContextExists} (h : makeContextExists n = some ctx) :
    NoNull ctx := NoNull.addVarnos (by simp [NoNull]) h

theorem foreach_ne_nil {heap : Heap Nat} {l : ListPtr} {data : List Nat} (hl : l ≠ none)
    (h : heap.foreach l = some data) : data ≠ [] := by
  obtain ⟨p, rfl⟩ := Option.ne_none_iff_exists'.mp hl
  obtain ⟨list, _, hchain⟩ := Option.bind_eq_some_iff.mp h
  cases hcells : heap.cells.length with
  | zero =>
    rw [hcells] at hchain
    cases hchain
  | succ fuel =>
    rw [hcells] at hchain
    obtain ⟨cell, _, hchain⟩ := Option.bind_eq_some_iff.mp hchain
    obtain ⟨rest, _, hchain⟩ := Option.bind_eq_some_iff.mp hchain
    cases hchain
    exact List.cons_ne_nil _ _

/-- No component is empty. -/
theorem connexes_ne_nil {nq : Node α} {L : List (List Nat)} (h : connexes nq = some L) :
    ∀ c ∈ L, c ≠ [] := by
  have hne : nq.rtable ≠ [] := by
    intro hnil
    rw [connexes, hnil] at h
    cases h
  rw [connexes_of_ne_nil hne, follows_cells.walk_eq] at h
  obtain ⟨ctx, hctx, hlists⟩ := Option.bind_eq_some_iff.mp h
  have hnull := noNull_read (fun c hc => noNull_make hc) hctx
  rw [NoNull] at hnull
  generalize ctx.listComposantesConnexes = ls at hnull hlists
  clear hctx h
  induction ls generalizing L with
  | nil =>
    cases hlists
    simp
  | cons l ls ih =>
    rw [List.forall_mem_cons] at hnull
    rw [List.mapM_cons] at hlists
    obtain ⟨data, hdata, hlists⟩ := Option.bind_eq_some_iff.mp hlists
    obtain ⟨rest, hrest, hlists⟩ := Option.bind_eq_some_iff.mp hlists
    cases hlists
    exact List.forall_mem_cons.mpr ⟨foreach_ne_nil hnull.1 hdata, ih hnull.2 hrest⟩

end Cells

end Infed.Exist
