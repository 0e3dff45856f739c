import Infed.Exist.Connectivity
import Infed.Exist.Deep
import Infed.Levels

/-! `optimize_exist_deep` on nested queries.  In a sub-select whose tied tables are linked with the
enclosing query, the other tables are in no comparison, so that each is a component by itself; they
are taken out if there are no sub-selects inside, and otherwise there are none.  Either way the
sub-select has a row exactly when it had one, which is all that EXISTS asks. -/

namespace Infed.Exist

variable {α : Type} {cat : Catalog} {A B : Atoms α} {l : Level}

/-! ### One level -/

/-- A WHERE with its sub-selects, already rewritten, left aside. -/
inductive Shallow (A : Atoms α) (l : Level) : Node α → Prop where
  | null : Shallow A l .null
  | atom {a} : A l a → Shallow A l a
  | and {args} : (∀ a ∈ args, Shallow A l a) → Shallow A l (.boolExpr .andExpr args)
  | exist {q} : Rules.tied.nests l → IsQuery q → Shallow A l (.subLink .existsSublink .null q)
  | notExist {q} : Rules.tied.nests l → IsQuery q → Shallow A l (Split.notExists q)

theorem Shallow.mono (hA : ∀ l a, A l a → B l a) {a : Node α} (h : Shallow A l a) :
    Shallow B l a := by
  induction h with
  | null => exact .null
  | atom h => exact .atom (hA _ _ h)
  | and _ ih => exact .and ih
  | exist hnests h => exact .exist hnests h
  | notExist hnests h => exact .notExist hnests h

theorem Shallow.parts {a : Node α} (h : Shallow Single l a) : Self.Parts l.size a := by
  induction h with
  | null => exact .null
  | atom h => exact .clause h.piece.1 h.piece.2
  | and _ ih => exact .and ih
  | exist _ h =>
    obtain ⟨_, _, _, _, rfl⟩ := h
    exact .exist
  | notExist _ h =>
    obtain ⟨_, _, _, _, rfl⟩ := h
    exact .notExist

/-- Without the constraints on one table only links are left. -/
theorem Shallow.strip {a : Node α} (h : Shallow Single l a) :
    Shallow Link l (Self.strip none a) ∧ directLinks (Self.strip none a) = directLinks a := by
  induction h with
  | null => exact ⟨.null, rfl⟩
  | atom h =>
    rw [h.piece.1.strip_eq]
    rcases h with h | ⟨i, _, _, h⟩
    · rw [h.takes, if_neg Bool.false_ne_true]
      exact ⟨.atom h, rfl⟩
    · rw [(Self.OnTable.one h).oneTable.takes, if_pos rfl, directLinks_onTable (.one h)]
      exact ⟨.null, rfl⟩
  | and _ ih =>
    rw [Self.strip_and, directLinks_and, directLinks_and, List.flatMap_map]
    exact ⟨.and (List.forall_mem_map.mpr fun a ha => (ih a ha).1),
      List.flatMap_congr fun a ha => (ih a ha).2⟩
  | exist hnests h => exact ⟨.exist hnests h, rfl⟩
  | notExist hnests h => exact ⟨.notExist hnests h, rfl⟩

/-! ### Components -/

/-- `create_connexe` follows the direct links. -/
theorem walk_shallow (htied : ∀ i ∈ l.tied, 1 ≤ i ∧ i ≤ l.size) {a : Node α}
    (h : Shallow Link l a) : ∀ {E ctx}, Seen l.size E ctx →
      ∃ ctx', walk createConnexe a ctx = (false, ctx') ∧
        Seen l.size (E ++ directLinks a) ctx' := by
  induction h with
  | null => exact fun {E ctx} hseen => ⟨ctx, rfl, by simpa [directLinks] using hseen⟩
  | atom h =>
    intro E ctx hseen
    obtain ⟨hv, hw, hne⟩ := h
    refine ⟨_, rfl, ?_⟩
    rw [directLinks, if_neg hne]
    exact hseen.merge (fun h0 => htied _ (hv h0)) fun h0 => htied _ (hw h0)
  | and _ ih =>
    intro E ctx hseen
    obtain ⟨ctx', hwalk, hseen'⟩ := walkList_seen (f := directLinks) ih hseen
    exact ⟨ctx', hwalk, by rw [directLinks_and]; exact hseen'⟩
  | exist _ h =>
    obtain ⟨_, _, _, _, rfl⟩ := h
    exact fun {E ctx} hseen => ⟨ctx, rfl, by simpa [directLinks] using hseen⟩
  | notExist _ h =>
    obtain ⟨_, _, _, _, rfl⟩ := h
    exact fun {E ctx} hseen => ⟨ctx, rfl, by simpa [directLinks, Split.notExists] using hseen⟩

/-- The ends of the links are tied, or in an enclosing query. -/
theorem Shallow.mem_links {a : Node α} (h : Shallow Link l a) :
    ∀ e ∈ directLinks a, (∀ i, e.1 = some i → i ∈ l.tied) ∧ ∀ i, e.2 = some i → i ∈ l.tied := by
  induction h with
  | null | exist | notExist => exact fun e he => absurd he List.not_mem_nil
  | and _ ih =>
    rw [directLinks_and]
    intro e he
    obtain ⟨a, ha, he⟩ := List.mem_flatMap.mp he
    exact ih a ha e he
  | atom h =>
    obtain ⟨hv, hw, hne⟩ := h
    have hplace : ∀ {v : Var} {i}, (v.varlevelsup = 0 → v.varno ∈ l.tied) → place v = some i →
        i ∈ l.tied := by
      intro v i hv hi
      by_cases h0 : v.varlevelsup = 0
      · obtain rfl : v.varno = i := by simpa [place, h0] using hi
        exact hv h0
      · simp [place, h0] at hi
    rw [directLinks, if_neg hne]
    intro e he
    rw [List.mem_singleton.mp he]
    exact ⟨fun i => hplace hv, fun i => hplace hw⟩

/-- What is left for the loop: the tables that are not tied, one by one. -/
theorem exists_untied {ctx : ContextExists} {a : Node α} (h : Shallow Link l a)
    (hrule : Rules.tied.subselect l (directLinks a)) (hseen : Seen l.size (directLinks a) ctx)
    (hne : ∀ c ∈ ctx.listComposantesConnexes, c ≠ []) :
    ∃ ks : List Nat, ctx.listComposantesConnexes = ks.map ([·]) ∧ ks.Nodup ∧ ks.length < l.size ∧
      ∀ k ∈ ks, 1 ≤ k ∧ k ≤ l.size ∧ k ∉ l.tied := by
  have hconn := connectivity_iff.mpr hseen.represents
  have hpart := hconn.partitions
  have hsub : ∀ i ∈ l.tied, i ∈ ctx.composanteConnexeSubLevel := fun i hi => by
    obtain ⟨h1, hn, hi⟩ := hrule.2 i hi
    exact (hconn.subLevel i h1 hn).mpr hi
  have hmem : ∀ c ∈ ctx.listComposantesConnexes, ∀ i ∈ c,
      1 ≤ i ∧ i ≤ l.size ∧ i ∉ ctx.composanteConnexeSubLevel := by
    intro c hc i hi
    have hflat : i ∈ ctx.listComposantesConnexes.flatten := List.mem_flatten.mpr ⟨c, hc, hi⟩
    have hrange := List.mem_range'_1.mp (hpart.mem_iff.mp (List.mem_append_right _ hflat))
    exact ⟨hrange.1, by omega, fun hi' => (List.nodup_append.mp hpart.nodup).2.2 i hi' i hflat rfl⟩
  have hsingle : ∀ c ∈ ctx.listComposantesConnexes, c.length = 1 := by
    intro c hc
    obtain ⟨i, rest, rfl⟩ := List.exists_cons_of_ne_nil (hne c hc)
    obtain ⟨hi1, hin, hi⟩ := hmem _ hc i List.mem_cons_self
    have hisolated : ∀ e ∈ directLinks a, e.1 ≠ some i ∧ e.2 ≠ some i := fun e he =>
      ⟨fun h1 => hi (hsub i ((h.mem_links e he).1 i h1)),
        fun h2 => hi (hsub i ((h.mem_links e he).2 i h2))⟩
    have hrest : rest = [] := by
      refine List.eq_nil_iff_forall_not_mem.mpr fun j hj => ?_
      obtain ⟨hj1, hjn, hjsub⟩ := hmem _ hc j (List.mem_cons_of_mem _ hj)
      have hij := (hconn.components i j hi1 hin hj1 hjn hi hjsub).mp
        ⟨_, hc, List.mem_cons_self, List.mem_cons_of_mem _ hj⟩
      obtain rfl : j = i := Option.some.inj (hij.isolated hisolated)
      have hnodup := (List.nodup_flatten.mp hpart.components).1 _ hc
      exact (List.nodup_cons.mp hnodup).1 hj
    rw [hrest]
    rfl
  have hks := eq_map_flatten hsingle
  refine ⟨_, hks, hpart.components, ?_, fun k hk => ?_⟩
  · obtain ⟨i, hi⟩ := List.exists_mem_of_ne_nil _ hrule.1
    have hpos := List.length_pos_of_mem (hsub i hi)
    have hlen := hpart.length_eq
    rw [List.length_append, List.length_range'] at hlen
    omega
  · obtain ⟨c, hc, hkc⟩ := List.mem_flatten.mp hk
    obtain ⟨h1, hn, hk'⟩ := hmem c hc k hkc
    exact ⟨h1, hn, fun htied => hk' (hsub k htied)⟩

/-- A WHERE with sub-selects has only tied tables; one without does not mention the others. -/
theorem Shallow.untouched {a : Node α} (h : Shallow Link l a) {ks : List Nat} (hne : ks ≠ [])
    (hks : ∀ k ∈ ks, 1 ≤ k ∧ k ≤ l.size ∧ k ∉ l.tied) : Untouched ks a := by
  have hleaf : ¬Rules.tied.nests l := by
    rintro ⟨_, hall⟩
    obtain ⟨k, hk⟩ := List.exists_mem_of_ne_nil _ hne
    obtain ⟨h1, hn, hnot⟩ := hks k hk
    exact hnot (hall k h1 hn)
  induction h with
  | null => exact .condition rfl (by simp [Avoids, columnsOf]) (by simp [innerColumns])
  | atom h =>
    obtain ⟨hv, hw, _⟩ := h
    refine .condition rfl (List.forall_mem_cons.mpr ⟨fun h0 hk => ?_,
      List.forall_mem_singleton.mpr fun h0 hk => ?_⟩) (fun v hv => absurd hv List.not_mem_nil)
    · exact (hks _ hk).2.2 (hv h0)
    · exact (hks _ hk).2.2 (hw h0)
  | and _ ih => exact .and ih
  | exist hnests _ | notExist hnests _ => exact absurd hnests hleaf

theorem closed_over {relids : List Oid} {rtable : List (Node α)}
    (h : List.Forall₂ (Self.Over cat) relids rtable) {rte : Node α} (hrte : rte ∈ rtable) :
    Closed rte := by
  induction h with
  | nil => cases hrte
  | cons hhead _ ih =>
    rcases List.mem_cons.mp hrte with rfl | hrte
    · exact hhead.closed
    · exact ih hrte

namespace Cells

theorem encountersList_pairs {args : List (Node α)}
    (h : ∀ a ∈ args, (encounters a).foldlM Pending.next .nothing = some .nothing) :
    (encountersList args).foldlM Pending.next .nothing = some .nothing := by
  induction args with
  | nil => rfl
  | cons a args ih =>
    rw [List.forall_mem_cons] at h
    rw [encountersList, List.foldlM_append, h.1, Option.bind_eq_bind, Option.bind_some, ih h.2]

/-- In each comparison, two columns and the end of the operator. -/
theorem encounters_shallow {a : Node α} (h : Shallow Link l a) :
    (encounters a).foldlM Pending.next .nothing = some .nothing := by
  induction h with
  | null => rfl
  | atom h =>
    obtain @⟨_, v, _, _, _, _⟩ := h
    by_cases hlevel : v.varlevelsup > 0 <;> simp [encounters, encountersList, Pending.next, hlevel]
  | and _ ih => exact encountersList_pairs ih
  | exist _ h =>
    obtain ⟨_, _, _, _, rfl⟩ := h
    rfl
  | notExist _ h =>
    obtain ⟨_, _, _, _, rfl⟩ := h
    rfl

theorem connexes_shallow {nq : Node α} (hne : nq.rtable ≠ []) (h : Shallow Link l nq.quals) :
    connexes nq = some (components nq.rtable.length nq.quals).listComposantesConnexes := by
  have horderly : orderly (encounters nq.quals) = true := by
    rw [orderly, encounters_shallow h]
    rfl
  obtain ⟨c, as, parts, hrun, s⟩ := shows_walk nq.rtable.length horderly
  rw [connexes_of_ne_nil hne, hrun, Option.bind_some]
  exact s.components_foreach

/-- The loop on a sub-select out of which the constraints on one table have been moved. -/
theorem rewriteComponents_shallow {relids : List Oid} {rtable : List (Node α)} {tied : List Nat}
    {leaf : Bool} {quals : Node α} (hover : List.Forall₂ (Self.Over cat) relids rtable)
    (hrule : Rules.tied.subselect ⟨relids.length, tied, leaf⟩ (directLinks quals))
    (h : Shallow Link ⟨relids.length, tied, leaf⟩ quals) :
    ∃ list q', connexes (selectStarFrom cat relids rtable quals) = some list ∧
      rewriteComponents list (selectStarFrom cat relids rtable quals) = some q' ∧ IsQuery q' ∧
      ∀ I D (ρ : Env α), evalQuery I D q' ρ ≠ [] ↔
        evalQuery I D (selectStarFrom cat relids rtable quals) ρ ≠ [] := by
  have hlen : rtable.length = relids.length := hover.length_eq.symm
  have hne : rtable ≠ [] := by
    obtain ⟨i, hi⟩ := List.exists_mem_of_ne_nil _ hrule.1
    have hin := hrule.2 i hi
    exact List.ne_nil_of_length_pos (hlen ▸ Nat.lt_of_lt_of_le hin.1 hin.2.1)
  have hlist : connexes (selectStarFrom cat relids rtable quals) =
      some (components relids.length quals).listComposantesConnexes := by
    rw [← hlen]
    exact connexes_shallow hne h
  obtain ⟨ctx, hwalk, hseen⟩ := walk_shallow (fun i hi => ⟨(hrule.2 i hi).1, (hrule.2 i hi).2.1⟩)
    h (seen_make _)
  have hctx : components relids.length quals = ctx := congrArg Prod.snd hwalk
  rw [hctx] at hlist
  rw [List.nil_append] at hseen
  have hnonempty := connexes_ne_nil hlist
  obtain ⟨ks, hks, hnodup, hfewer, huntied⟩ := exists_untied h hrule hseen hnonempty
  obtain ⟨q', hloop, hsome⟩ : ∃ q', rewriteLoop ks.length (ks.map ([·]))
        (selectStarFrom cat relids rtable quals) = some q' ∧
      ∀ I D (ρ : Env α), evalQuery I D q' ρ ≠ [] ↔
        evalQuery I D (selectStarFrom cat relids rtable quals) ρ ≠ [] := by
    by_cases hnil : ks = []
    · subst hnil
      exact ⟨_, rfl, fun _ _ _ => Iff.rfl⟩
    · have hready : Ready ks (Self.selectStar cat relids) rtable quals := by
        refine ⟨Self.areExpressions_selectStar _, fun rte hrte => closed_over hover hrte, hnodup,
          fun k hk => ?_, by rw [hlen]; exact hfewer, h.untouched hnil huntied⟩
        rw [hlen]
        exact ⟨(huntied k hk).1, (huntied k hk).2.1⟩
      rw [selectStarFrom, ← hlen]
      exact rewriteLoop_ready hready
  have hrun : rewriteComponents ctx.listComposantesConnexes
      (selectStarFrom cat relids rtable quals) = some q' := by
    rw [rewriteComponents, hks, List.length_map]
    exact hloop
  exact ⟨_, q', hlist, hrun, isQuery_rewriteLoop hnonempty hrun ⟨_, _, _, _, rfl⟩, hsome⟩

/-- A sub-select whose own sub-selects have been rewritten. -/
theorem optimizeExist_shallow {relids : List Oid} {rtable : List (Node α)} {tied : List Nat}
    {leaf : Bool} {quals : Node α} (hover : List.Forall₂ (Self.Over cat) relids rtable)
    (hrule : Rules.tied.subselect ⟨relids.length, tied, leaf⟩ (directLinks quals))
    (h : Shallow Single ⟨relids.length, tied, leaf⟩ quals) :
    ∃ q', optimizeExist (selectStarFrom cat relids rtable quals) = some q' ∧ IsQuery q' ∧
      ∀ I D, Self.Conforms cat D → ∀ ρ, evalQuery I D q' ρ ≠ [] ↔
        evalQuery I D (selectStarFrom cat relids rtable quals) ρ ≠ [] := by
  obtain ⟨rtable', hself, hover', hrows⟩ := Self.optimizeSelfConstraint_parts hover h.parts
  obtain ⟨hstrip, hlinks⟩ := h.strip
  obtain ⟨list, q', hlist, hrun, hquery, hsome⟩ :=
    rewriteComponents_shallow hover' (hlinks ▸ hrule) hstrip
  refine ⟨q', ?_, hquery, fun I D hD ρ => ?_⟩
  · rw [selectStarFrom] at hlist hrun
    simp only [optimizeExist, selectStarFrom, hself, hlist, hrun, Option.bind_eq_bind,
      Option.bind_some]
  · rw [hsome, selectStarFrom, hrows I D hD, selectStarFrom]

/-! ### Every depth -/

/-- What `mutator_exist_deep` makes of the condition `a`. -/
structure Deepens (cat : Catalog) (A : Atoms α) (l : Level) (a a' : Node α) : Prop where
  run : mutate mutatorExistDeep a () = some (a', ())
  shallow : Shallow A l a'
  links : directLinks a' = directLinks a
  value : ∀ I D, Self.Conforms cat D → ∀ ρ, evalCond I D a' ρ = evalCond I D a ρ

theorem Deepens.mono (hA : ∀ l a, A l a → B l a) {a a' : Node α} (h : Deepens cat A l a a') :
    Deepens cat B l a a' := ⟨h.run, h.shallow.mono hA, h.links, h.value⟩

/-- The whole sub-select, from its WHERE. -/
theorem Deepens.query {relids : List Oid} {rtable : List (Node α)} {tied : List Nat} {leaf : Bool}
    {quals quals' : Node α} (hover : List.Forall₂ (Self.Over cat) relids rtable)
    (hrule : Rules.tied.subselect ⟨relids.length, tied, leaf⟩ (directLinks quals))
    (h : Deepens cat Single ⟨relids.length, tied, leaf⟩ quals quals') :
    ∃ q', mutate mutatorExistDeep (selectStarFrom cat relids rtable quals) () = some (q', ()) ∧
      IsQuery q' ∧ ∀ I D, Self.Conforms cat D → ∀ ρ, (evalQuery I D q' ρ).isEmpty =
        (evalQuery I D (selectStarFrom cat relids rtable quals) ρ).isEmpty := by
  obtain ⟨q', hrun, hquery, hrows⟩ := optimizeExist_shallow hover (h.links ▸ hrule) h.shallow
  refine ⟨q', ?_, hquery, fun I D hD ρ => ?_⟩
  · rw [selectStarFrom] at hrun
    simp [selectStarFrom, mutate, mutatorExistDeep, h.run, hrun]
  · have hsame : evalQuery I D (selectStarFrom cat relids rtable quals') ρ =
        evalQuery I D (selectStarFrom cat relids rtable quals) ρ := by
      simp only [selectStarFrom, evalQuery, h.value I D hD]
    have hiff := hrows I D hD ρ
    rw [hsame] at hiff
    rw [Bool.eq_iff_iff, List.isEmpty_iff, List.isEmpty_iff]
    exact not_iff_not.mp hiff

theorem deepens_and {args : List (Node α)} (h : ∀ a ∈ args, ∃ a', Deepens cat A l a a') :
    ∃ a', Deepens cat A l (.boolExpr .andExpr args) a' := by
  obtain ⟨args', hargs⟩ := exists_forall₂ h
  have hrun := mutateList_forall₂ hargs fun _ _ h => h.run
  refine ⟨.boolExpr .andExpr args', by simp [mutate, mutatorExistDeep, hrun],
    .and (forall_right_of_forall₂ hargs fun _ _ h => h.shallow), ?_,
    fun I D hD ρ => evalCond_and_forall₂ hargs fun _ _ h => h.value I D hD ρ⟩
  simpa using directLinks_and_forall₂ (f := id) hargs fun _ _ h => h.links

theorem atQueries_mutatorExistDeep : AtQueries (mutatorExistDeep (α := α)) := by
  intro node traverse hnull hquery
  cases node with
  | null => exact absurd rfl hnull
  | query => exact absurd rfl (hquery _ _ _ _)
  | _ => rfl

theorem deepens_nested {P : Atoms α} (hP : ∀ l a, P l a → Single l a)
    (hB : ∀ l a, B l a → Single l a) (hA : ∀ l a, A l a → Self.Clause a) {a : Node α}
    (h : Nested cat .tied P A B l a) : ∃ a', Deepens cat A l a a' := by
  have hclause : ∀ {C : Atoms α}, (∀ l a, C l a → Single l a) → ∀ l a, C l a → Self.Clause a :=
    fun hC l a h => .test (hC l a h).test
  induction h with
  | null => exact ⟨.null, rfl, .null, rfl, fun _ _ _ _ => rfl⟩
  | atom h =>
    exact ⟨_, atQueries_mutatorExistDeep.clause (hA _ _ h), .atom h, rfl, fun _ _ _ _ => rfl⟩
  | and _ ih => exact deepens_and fun a ha => ih a ha hB hA
  | exist hnests hover hrule _ ih =>
    obtain ⟨quals', hquals⟩ := ih hP (hclause hP)
    obtain ⟨q', hrun, hquery, hempty⟩ := (hquals.mono hP).query hover hrule
    exact ⟨.subLink .existsSublink .null q', by simp [mutate, mutatorExistDeep, hrun],
      .exist hnests hquery, rfl, fun I D hD ρ => by simp only [evalCond, hempty I D hD]⟩
  | notExist hnests hover hrule _ ih =>
    obtain ⟨quals', hquals⟩ := ih hB (hclause hB)
    obtain ⟨q', hrun, hquery, hempty⟩ := (hquals.mono hB).query hover hrule
    refine ⟨Split.notExists q', ?_, .notExist hnests hquery, rfl, fun I D hD ρ => ?_⟩
    · simp [Split.notExists, mutate, mutatorExistDeep, mutateList, hrun]
    · simp only [Split.notExists, evalCond_not, evalCond, hempty I D hD]

/-- On a query with sub-selects without OR at any depth, in each of which comparisons link some
tables with the enclosing query, and all of them if it has sub-selects itself,
`optimize_exist_deep` returns a query with the same rows. -/
theorem optimizeExistDeep_preserves {targetList rtable : List (Node α)} {fromlist : List Nat}
    {quals : Node α} (h : Nested cat .tied Single (fun _ => Self.Clause) Single l quals) :
    ∃ q', optimizeExistDeep (.query targetList rtable fromlist quals) = some q' ∧
      ∀ I D, Self.Conforms cat D → ∀ ρ, evalQuery I D q' ρ =
        evalQuery I D (.query targetList rtable fromlist quals) ρ := by
  obtain ⟨quals', hdeep⟩ := deepens_nested (fun _ _ => id) (fun _ _ => id) (fun _ _ => id) h
  refine ⟨.query targetList rtable fromlist quals', by simp [optimizeExistDeep, hdeep.run],
    fun I D hD ρ => ?_⟩
  simp only [evalQuery, hdeep.value I D hD]

/-- `NOT EXISTS (SELECT * FROM s WHERE s.a = r.a AND EXISTS (SELECT * FROM t, u WHERE t.a = s.a AND
u.b IS NULL))`, over tables with two columns. -/
def untiedInside : Node Int :=
  Split.notExists (selectStarFrom (.nullable 2) [2] [baseTable 2] (.boolExpr .andExpr [
    .opExpr 96 [.var ⟨1, 1, 0⟩, .var ⟨1, 1, 1⟩],
    .subLink .existsSublink .null (selectStarFrom (.nullable 2) [3, 4] [baseTable 3, baseTable 4]
      (.boolExpr .andExpr [.opExpr 96 [.var ⟨1, 1, 0⟩, .var ⟨1, 1, 1⟩],
        .nullTest .isNull (.var ⟨2, 2, 0⟩)]))]))

theorem nested_untiedInside : Nested (.nullable 2) .tied Single (fun _ => Self.Clause) Single
    ⟨1, [1], false⟩ untiedInside := by
  have hover := Self.forall₂_over_baseTables (α := Int) (.nullable 2)
  have hlinked : ∀ {n : Nat} (leaf : Bool) {args : List (Node Int)}, 1 ≤ n →
      Rules.tied.subselect ⟨n, [1], leaf⟩ (directLinks
        (.boolExpr .andExpr (.opExpr 96 [.var ⟨1, 1, 0⟩, .var ⟨1, 1, 1⟩] :: args))) :=
    fun _ _ hn => Rules.tied_first hn List.mem_cons_self
  refine .notExist Rules.tied_nests_first (hover [2]) (hlinked false (by decide))
    (.and (List.forall_mem_cons.mpr ⟨.atom (.inl (link_first _ _ _ 1)),
      List.forall_mem_singleton.mpr (.exist Rules.tied_nests_first (hover [3, 4])
        (hlinked true (by decide)) (.and ?_))⟩))
  exact List.forall_mem_cons.mpr ⟨.atom (.inl (link_first _ _ _ 1)), List.forall_mem_singleton.mpr
    (.atom (.inr ⟨2, by decide, by decide, .nullTest⟩))⟩

/-- `u` is taken out of the inner sub-select, after its constraint has moved into FROM. -/
theorem optimizeExistDeep_preserves_untiedInside :
    ∃ q', optimizeExistDeep (selectStarFrom (.nullable 2) [1] [baseTable 1] untiedInside) =
        some q' ∧
      ∀ I D, Self.Conforms (.nullable 2) D → ∀ ρ, evalQuery I D q' ρ =
        evalQuery I D (selectStarFrom (.nullable 2) [1] [baseTable 1] untiedInside) ρ :=
  optimizeExistDeep_preserves nested_untiedInside

end Cells

end Infed.Exist
