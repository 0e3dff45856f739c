import Infed.Exist.Scoped
import Infed.Self.Columns

/-! The sub-selects of a query while components are taken out of it.  Neither `mutator_conn` nor
`mutator_varquals` enters a sub-select, and `create_connexe` does not look into one: it stays as it
is, and a column in it that refers to the query goes on denoting its table only if nothing is
deleted from the range table up to the place of that table; and its attribute only if the columns of
the sub-select that has replaced the table are in order. -/

namespace Infed.Exist

variable {α : Type} {n : Nat} {K c : List Nat}

/-! ### Sub-links of the WHERE -/

mutual

/-- The sub-links of a condition. -/
def nested : Node α → List (Node α)
  | .subLink kind testexpr subselect => [.subLink kind testexpr subselect]
  | .boolExpr _ args => nestedList args
  | _ => []

def nestedList : List (Node α) → List (Node α)
  | [] => []
  | node :: nodes => nested node ++ nestedList nodes

end

theorem nestedList_eq_flatMap (args : List (Node α)) : nestedList args = args.flatMap nested := by
  induction args with
  | nil => rfl
  | cons a args ih => rw [nestedList, List.flatMap_cons, ih]

mutual

theorem references_nested : ∀ (a : Node α) {s : Node α} {v : Var}, s ∈ nested a →
    v ∈ references s → v ∈ references a
  | .subLink _ _ _, s, v, hs, hv => by
    obtain rfl := List.mem_singleton.mp hs
    exact hv
  | .boolExpr _ args, s, v, hs, hv => referencesList_nested args hs hv
  | .null, _, _, hs, _ | .var _, _, _, hs, _ | .const _, _, _, hs, _ | .param _, _, _, hs, _
  | .opExpr _ _, _, _, hs, _ | .nullTest _ _, _, _, hs, _ | .query _ _ _ _, _, _, hs, _
  | .rangeTblEntry _ _ _, _, _, hs, _ | .targetEntry _ _, _, _, hs, _
  | .list _, _, _, hs, _ => by cases hs

theorem referencesList_nested : ∀ (nodes : List (Node α)) {s : Node α} {v : Var},
    s ∈ nestedList nodes → v ∈ references s → v ∈ referencesList nodes
  | [], _, _, hs, _ => by cases hs
  | node :: nodes, s, v, hs, hv => by
    rw [referencesList, List.mem_append]
    rcases List.mem_append.mp hs with hs | hs
    · exact .inl (references_nested node hs hv)
    · exact .inr (referencesList_nested nodes hs hv)

end

theorem nested_strip {a : Node α} (h : Plain a) : nested (strip c false a) = nested a := by
  induction h with
  | null => rfl
  | comparison =>
    unfold strip
    split <;> rfl
  | exist => rfl
  | bool hargs ih =>
    rw [strip, nested, nested, stripList_eq_map hargs, nestedList_eq_flatMap,
      nestedList_eq_flatMap, List.flatMap_map]
    exact List.flatMap_congr ih

theorem nested_mapColumns (f : Var → Var) {a : Node α} (h : Plain a) :
    nested (mapColumns f a) = nested a := by
  induction h with
  | null => rfl
  | comparison => rfl
  | exist => rfl
  | bool _ ih =>
    rw [mapColumns, nested, nested, mapColumnsList_eq_map, nestedList_eq_flatMap,
      nestedList_eq_flatMap, List.flatMap_map]
    exact List.flatMap_congr ih

/-- A round leaves the sub-links as they are. -/
theorem mem_nestedList_nextArgs {args : List (Node α)} (h : ∀ a ∈ args, Plain a)
    {entry : Nat → Node α} {targetList : List (Node α)} {s : Node α} (hs : s ∈ nestedList args) :
    s ∈ nestedList (nextArgs K c entry targetList args) := by
  have hplain : Plain (.boolExpr .andExpr args) := .bool h
  rw [nextArgs, nestedList, nested_mapColumns _ hplain.strip, nested_strip hplain]
  exact List.mem_append_left _ hs

/-! ### The rounds -/

/-- In the numbers of each round, every table that is taken out stands so far behind `r` that its
deletion leaves the places up to `r` alone. -/
def SparedIn (r : Nat) (K : List Nat) (P : List (List Nat)) : Prop :=
  ∀ k compo, P[k]? = some compo → ∀ i w, compo[i]? = some w →
    r + i < number (rest K (P.take k).flatten) w

theorem sparedIn_cons {r : Nat} {compo : List Nat} {P : List (List Nat)} :
    SparedIn r K (compo :: P) ↔
      (∀ i w, compo[i]? = some w → r + i < number K w) ∧ SparedIn r (rest K compo) P := by
  have hrest : rest K [] = K := by simp [rest]
  constructor
  · intro h
    refine ⟨fun i w hw => ?_, fun k c' hc' i w hw => ?_⟩
    · have := h 0 compo rfl i w hw
      rwa [List.take_zero, List.flatten_nil, hrest] at this
    · have := h (k + 1) c' (by simpa using hc') i w hw
      rwa [List.take_succ_cons, List.flatten_cons, ← rest_rest] at this
  · rintro ⟨hhead, htail⟩ k c' hc' i w hw
    cases k with
    | zero =>
      obtain rfl : compo = c' := by simpa using hc'
      rw [List.take_zero, List.flatten_nil, hrest]
      exact hhead i w hw
    | succ k =>
      rw [List.take_succ_cons, List.flatten_cons, ← rest_rest]
      exact htail k c' (by simpa using hc') i w hw

section Loop

variable {targetList args cs rtable : List (Node α)} {P : List (List Nat)} {fromlist : List Nat}

/-- The rounds after the first. -/
theorem Pending.rewriteComponents_cons (h : Pending K targetList args cs (c :: P))
    (hlength : rtable.length = K.length) :
    rewriteComponents ((c :: P).map (·.map (number K)))
        (.query targetList rtable fromlist (.boolExpr .andExpr args)) =
      (deleteRtes (c.map (number K)) 0 rtable).bind fun rtable' =>
        rewriteComponents (P.map (·.map (number (rest K c))))
          (.query (nextTargets K c targetList) rtable' (substract fromlist c.length)
            (.boolExpr .andExpr (nextArgs K c (entryOf K rtable) targetList args))) := by
  simp only [rewriteComponents, List.length_map, List.map_cons, List.length_cons, rewriteLoop,
    h.rewriteConnexe_rtable hlength, h.renumbered, Option.bind_eq_bind]
  cases deleteRtes (c.map (number K)) 0 rtable <;> rfl

theorem Pending.length_deleteRtes (h : Pending K targetList args cs (c :: P))
    (hlength : rtable.length = K.length) {rtable' : List (Node α)}
    (hdelete : deleteRtes (c.map (number K)) 0 rtable = some rtable') :
    rtable'.length = (rest K c).length := by
  obtain ⟨hc, hsub, _⟩ := h.head
  have hrest := length_rest hc (nodup_of_ascending h.ascending) hsub
  have hdeleted := (deleteRtes_sublist hdelete).2
  rw [List.length_map] at hdeleted
  omega

/-- The loop returns and leaves the sub-links, and the range table up to a place that is spared. -/
theorem Pending.keeps (h : Pending K targetList args cs P) (hlength : rtable.length = K.length) :
    ∃ q', rewriteComponents (P.map (·.map (number K)))
        (.query targetList rtable fromlist (.boolExpr .andExpr args)) = some q' ∧
      (∀ s ∈ nestedList args, s ∈ nested q'.quals) ∧
      ∀ r, SparedIn r K P → ∀ p < r, q'.rtable[p]? = rtable[p]? := by
  induction P generalizing K targetList args cs rtable fromlist with
  | nil => exact ⟨_, rfl, fun s hs => hs, fun _ _ _ _ => rfl⟩
  | cons c P ih =>
    obtain ⟨hc, hsub, _⟩ := h.head
    obtain ⟨rtable', hdelete⟩ := deleteRtes_number h.ascending hc hsub hlength
    obtain ⟨q', hrun, hnested, hrest⟩ : ∃ q', rewriteComponents (P.map (·.map (number (rest K c))))
        (.query (nextTargets K c targetList) rtable' (substract fromlist c.length)
          (.boolExpr .andExpr (nextArgs K c (entryOf K rtable) targetList args))) = some q' ∧ _ :=
      ih (h.next (entryOf K rtable)) (h.length_deleteRtes hlength hdelete)
    refine ⟨q', ?_, fun s hs => hnested s (mem_nestedList_nextArgs h.plain hs),
      fun r hspared p hp => ?_⟩
    · rw [h.rewriteComponents_cons hlength, hdelete]
      exact hrun
    · rw [sparedIn_cons] at hspared
      rw [hrest r hspared.2 p hp]
      refine deleteRtes_spares hdelete (fun j w hw => ?_) p hp
      rw [List.getElem?_map, Option.map_eq_some_iff] at hw
      obtain ⟨v, hv, rfl⟩ := hw
      have := hspared.1 j v hv
      omega

/-- A place of the range table that the loop leaves is spared. -/
theorem Pending.sparedIn (h : Pending K targetList args cs P) (hlength : rtable.length = K.length)
    (hrtable : rtable.Nodup) {q' : Node α}
    (hrun : rewriteComponents (P.map (·.map (number K)))
      (.query targetList rtable fromlist (.boolExpr .andExpr args)) = some q') :
    q'.rtable.Sublist rtable ∧ ∀ p x, rtable[p]? = some x → q'.rtable[p]? = some x →
      SparedIn (p + 1) K P := by
  induction P generalizing K targetList args cs rtable fromlist with
  | nil =>
    cases hrun
    exact ⟨List.Sublist.refl _, fun p x _ _ k c hc => by simp at hc⟩
  | cons c P ih =>
    rw [h.rewriteComponents_cons hlength, Option.bind_eq_some_iff] at hrun
    obtain ⟨rtable', hdelete, hrun⟩ := hrun
    have hsub := (deleteRtes_sublist hdelete).1
    obtain ⟨hsub', hplaces⟩ := ih (h.next (entryOf K rtable))
      (h.length_deleteRtes hlength hdelete) (hrtable.sublist hsub) hrun
    refine ⟨hsub'.trans hsub, fun p x hx hx' => sparedIn_cons.mpr ?_⟩
    -- an entry moves to smaller places only, so it has not moved in this round
    obtain ⟨p1, hp1, hget1⟩ := getElem?_of_sublist hsub' hx'
    obtain ⟨p2, hp2, hget2⟩ := getElem?_of_sublist hsub hget1
    obtain rfl := place_inj hrtable hx hget2
    obtain rfl : p1 = p := by omega
    refine ⟨fun i v hv => ?_, hplaces p1 x hget1 hx'⟩
    have := spares_of_deleteRtes hrtable hdelete hx hget1 i (number K v) (by simp [hv])
    omega

end Loop

/-! ### `optimize_exist` -/

/-- The loop deletes nothing from the range table up to the FROM entry `r`.  The `i`-th table `w` of
the `k`-th component is deleted at the index `w - 1 - i`, with the number that it has after the
components before it have been taken out. -/
def Spares (r : Nat) (L : List (List Nat)) : Prop :=
  ∀ k compo, L[k]? = some compo → ∀ i w, compo[i]? = some w →
    r + i < deacrease w (L.take k).flatten

theorem spares_iff_sparedIn {r : Nat} {L : List (List Nat)} (hnodup : L.flatten.Nodup)
    (hsub : ∀ v ∈ L.flatten, v ∈ List.range' 1 n) :
    Spares r L ↔ SparedIn r (List.range' 1 n) L := by
  refine forall₃_congr fun k c hc => forall₃_congr fun i w hw => ?_
  have htake : (L.take k).flatten.Sublist L.flatten := by
    have happend : L.flatten = (L.take k).flatten ++ (L.drop k).flatten := by
      rw [← List.flatten_append, List.take_append_drop]
    exact happend ▸ List.sublist_append_left _ _
  have hmem : w ∈ List.range' 1 n :=
    hsub w (List.mem_flatten.mpr ⟨c, List.mem_of_getElem? hc, List.mem_of_getElem? hw⟩)
  rw [deacrease_eq_number (hnodup.sublist htake) (fun v hv => hsub v (htake.subset hv)) hmem]

/-- Components in ascending order spare the FROM entries before all their tables. -/
theorem spares_of_ascending {r : Nat} {L : List (List Nat)} (hnodup : L.flatten.Nodup)
    (hasc : ∀ c ∈ L, c.Pairwise (· < ·)) (hbehind : ∀ w ∈ L.flatten, r < w) : Spares r L := by
  intro k c hc i w hw
  obtain ⟨hk, rfl⟩ := List.getElem?_eq_some_iff.mp hc
  obtain ⟨hi, rfl⟩ := List.getElem?_eq_some_iff.mp hw
  have hsplit : L.flatten = (L.take k).flatten ++ (L[k] ++ (L.drop (k + 1)).flatten) := by
    rw [← List.flatten_cons, ← List.drop_eq_getElem_cons hk, ← List.flatten_append,
      List.take_append_drop]
  rw [hsplit, List.nodup_append, List.nodup_append] at hnodup
  obtain ⟨hX, ⟨hc, -, -⟩, hdisjoint⟩ := hnodup
  simp only [hsplit, List.mem_append] at hbehind
  have hpair := List.pairwise_iff_getElem.mp (hasc L[k] (List.getElem_mem hk))
  -- the tables before `w` in the component, and those of earlier components with smaller numbers
  have hnodup' : (L[k].take i ++ (L.take k).flatten.filter (L[k][i] > ·)).Nodup := by
    refine List.nodup_append.mpr ⟨hc.sublist (List.take_sublist _ _), hX.filter _, ?_⟩
    intro u hu v hv huv
    exact hdisjoint v (List.mem_filter.mp hv).1 u
      (List.mem_append_left _ (List.mem_of_mem_take hu)) huv.symm
  have hsub : L[k].take i ++ (L.take k).flatten.filter (L[k][i] > ·) ⊆
      List.range' (r + 1) (L[k][i] - r - 1) := by
    intro u hu
    rw [List.mem_range'_1]
    rcases List.mem_append.mp hu with hu | hu
    · have hgt := hbehind u (.inr (.inl (List.mem_of_mem_take hu)))
      obtain ⟨j, hj, rfl⟩ := List.mem_iff_getElem.mp hu
      rw [List.length_take] at hj
      rw [List.getElem_take] at hgt ⊢
      have := hpair j i (by omega) hi (by omega)
      omega
    · have hgt := hbehind u (.inl (List.mem_filter.mp hu).1)
      have hlt := of_decide_eq_true (List.mem_filter.mp hu).2
      omega
  have hlength := (List.subperm_of_subset hnodup' hsub).length_le
  have hw' := hbehind L[k][i] (.inr (.inl (List.getElem_mem hi)))
  rw [List.length_append, List.length_take, List.length_range', Nat.min_eq_left (by omega)]
    at hlength
  rw [deacrease]
  omega

/-! ### What a column denotes -/

/-- The table, and the attribute of it, that a column of a query over the range table denotes. -/
def denoted (rtable : List (Node α)) (v : Var) : Option (Oid × Nat) :=
  (entryAt rtable v.varno).bind fun rte =>
    match rte with
    | .rangeTblEntry kind relid subquery =>
      (Self.carries (.rangeTblEntry kind relid subquery) v.varattno).map (relid, ·)
    | _ => none

/-- What a column denotes after `rewrite_self` has attached the constraints. -/
theorem denoted_wraps {targetList ts : List (Node α)} {relid : Oid} {rtable : List (Node α)}
    {v : Var} (h : entryAt rtable v.varno =
      some (Self.wraps targetList (v.varno - 1) ts (baseTable relid))) :
    denoted rtable v =
      (Self.followed targetList (v.varno - 1) ts v.varattno).map (relid, ·) := by
  obtain ⟨kind, subquery, hwraps, _⟩ := Self.wraps_entry targetList (v.varno - 1) relid ts
    .rteRelation .null
  rw [← Self.carries_constrained targetList (v.varno - 1) ts relid]
  rw [baseTable, hwraps] at h ⊢
  rw [denoted, h, Option.bind_some]

/-! ### Conjuncts -/

/-- A conjunct before `optimize_self_constraint`, which moves null tests on a column. -/
inductive Given (n : Nat) : Node α → Prop where
  | conjunct {a} : Conjunct n a → Given n a
  | nullTest {test v} : InFrom n v → Given n (.nullTest test (.var v))

theorem Given.modifies {a : Node α} (h : Given n a) : Self.Modifies none a := by
  cases h with
  | conjunct ha => exact ha.modifies
  | nullTest => exact Self.modifies (.nullTest .column) none

theorem takes_nullTest (test : NullTestType) (v : Var) :
    Self.takes (.nullTest test (.var v) : Node α) = true := by
  simp [Self.takes, Self.verdict, columnsOf]

theorem Given.isExpression_moved {a : Node α} (h : Given n a) :
    ∀ t ∈ Self.moved none a, t.isExpression = true := by
  cases h with
  | conjunct ha => exact ha.isExpression_moved
  | nullTest => simp [Self.moved, takes_nullTest, Node.isExpression]

theorem Given.strip {a : Node α} (h : Given n a) : Conjunct n (Self.strip none a) := by
  cases h with
  | conjunct ha =>
    rw [ha.moved_eq.2]
    split
    · exact .null
    · exact ha
  | nullTest =>
    rw [Self.strip, takes_nullTest]
    exact .null

theorem Given.nested_strip {a : Node α} (h : Given n a) :
    nested (Self.strip none a) = nested a := by
  cases h with
  | conjunct ha =>
    rw [ha.moved_eq.2]
    cases ha with
    | comparison => split <;> rfl
    | _ => rfl
  | nullTest =>
    rw [Self.strip, takes_nullTest]
    rfl

section Query

variable {targetList args : List (Node α)}

/-- Different tables are different entries. -/
theorem constrained_inj {ts : List (Node α)} {relids : List Oid} {p q : Nat} {relid relid' : Oid}
    (hp : relids[p]? = some relid) (hq : relids[q]? = some relid')
    (h : (Self.constrained targetList ts relids)[p]? =
      (Self.constrained targetList ts relids)[q]?) : relid = relid' := by
  rw [Self.constrained_getElem?, Self.constrained_getElem?, hp, hq] at h
  obtain ⟨kind, subquery, hwraps, _⟩ := Self.wraps_entry targetList p relid ts .rteRelation .null
  obtain ⟨kind', subquery', hwraps', _⟩ :=
    Self.wraps_entry targetList q relid' ts .rteRelation .null
  simp only [baseTable, Option.map_some, hwraps, hwraps'] at h
  cases h
  rfl

theorem getElem?_numbers {p : Nat} (hp : p < n) : (List.range' 1 n)[p]? = some (p + 1) := by
  rw [List.getElem?_range' hp]
  exact congrArg some (by omega)

/-- With the tables numbered, each entry is another one. -/
theorem constrained_nodup (targetList ts : List (Node α)) (n : Nat) :
    (Self.constrained targetList ts (List.range' 1 n)).Nodup := by
  refine List.nodup_iff_getElem?_ne_getElem?.mpr fun i j hij hj heq => ?_
  have hj : j < n := by simpa [Self.constrained] using hj
  have heq : i + 1 = j + 1 :=
    constrained_inj (getElem?_numbers (by omega)) (getElem?_numbers hj) heq
  omega

/-- If a column still denotes its own table and attribute after deletions, the entry stands where it
stood, and the constraints of the table leave the attribute in its place. -/
theorem denoted_own {ts rtable : List (Node α)} {v : Var}
    (hsub : rtable.Sublist (Self.constrained targetList ts (List.range' 1 n)))
    (h : denoted rtable v = some (v.varno, v.varattno)) :
    (∃ rte, (Self.constrained targetList ts (List.range' 1 n))[v.varno - 1]? = some rte ∧
      rtable[v.varno - 1]? = some rte) ∧
    Self.followed targetList (v.varno - 1) ts v.varattno = some v.varattno := by
  obtain ⟨rte, hrte, hcarries⟩ := Option.bind_eq_some_iff.mp h
  obtain ⟨-, -, hget⟩ := entryAt_eq_some hrte
  obtain ⟨p, -, hgetp⟩ := getElem?_of_sublist hsub hget
  have hpn : p < n := by
    simpa [Self.constrained] using (List.getElem?_eq_some_iff.mp hgetp).1
  have hwraps := hgetp
  rw [Self.constrained_getElem?, getElem?_numbers hpn] at hwraps
  obtain rfl := Option.some.inj hwraps
  -- the table says which entry it is
  have hno : v.varno = p + 1 := by
    obtain ⟨kind, subquery, hshape, _⟩ := Self.wraps_entry targetList p (p + 1) ts .rteRelation
      .null
    dsimp only [baseTable] at hcarries
    rw [hshape] at hcarries
    obtain ⟨_, _, heq⟩ := Option.map_eq_some_iff.mp hcarries
    exact (congrArg Prod.fst heq).symm
  have hindex : v.varno - 1 = p := by omega
  refine ⟨⟨_, hindex ▸ hgetp, hget⟩, ?_⟩
  rw [← hindex] at hrte
  rw [denoted_wraps hrte] at h
  obtain ⟨j, hfollowed, heq⟩ := Option.map_eq_some_iff.mp h
  obtain rfl : j = v.varattno := congrArg Prod.snd heq
  exact hfollowed

/-- `optimize_exist`, from what `my_modifier_self` makes of the WHERE. -/
theorem optimizeExist_given (htarget : Node.areExpressions targetList = true)
    (hargs : ∀ a ∈ args, Given n a) (hn : n ≠ 0) {context : Self.ContextOptimizerSelf α}
    (hmodify : mutate Self.myModifierSelf (.boolExpr .andExpr args) Self.makeContextOptimizerSelf =
      some (.boolExpr .andExpr (args.map (Self.strip none)), context))
    (hexpr : ∀ t ∈ context.alreadyConstrainRel, t.isExpression = true) {relids : List Oid}
    (hlength : relids.length = n) :
    optimizeExist (selectFrom targetList relids (.boolExpr .andExpr args)) =
      if ∀ t ∈ context.alreadyConstrainRel, Self.placeOf t < n then
        rewriteComponents ((components n (.boolExpr .andExpr (args.map (Self.strip none)))
            ).listComposantesConnexes.map (·.map (number (List.range' 1 n))))
          (.query targetList (Self.constrained targetList context.alreadyConstrainRel relids)
            (List.range' 1 n) (.boolExpr .andExpr (args.map (Self.strip none))))
      else none := by
  subst hlength
  have hstrip := List.forall_mem_map.mpr fun a ha => (hargs a ha).strip
  rw [optimizeExist, selectFrom, Self.optimizeSelfConstraint_eq htarget hmodify hexpr,
    List.length_map, ← Self.constrained]
  split
  · rw [Option.bind_eq_bind, Option.bind_some,
      connexes_eq (by simpa [Node.rtable, Self.constrained] using hn), Option.bind_eq_bind,
      Option.bind_some, map_number_range (pending_components htarget hstrip).subset]
    simp [Node.rtable, Node.quals, Self.constrained]
  · rfl

/-- On a query over tables whose WHERE is an AND of comparisons with two operands, null tests on a
column, EXISTS, and NOT EXISTS: a column inside a sub-select of the WHERE, which refers to a FROM
entry of the query, still denotes its table and attribute after `optimize_exist` exactly if each
constraint that `my_modifier_self` collects has a FROM entry, those of the table leave the attribute
in its place, and nothing is deleted from the range table up to the entry. -/
theorem optimizeExist_nested_iff (htarget : Node.areExpressions targetList = true)
    (hargs : ∀ a ∈ args, Given n a) {s : Node α} (hs : s ∈ nestedList args) {v : Var}
    (hv : v ∈ references s) (hlevel : v.varlevelsup = 0) (hfrom : 1 ≤ v.varno ∧ v.varno ≤ n) :
    ∃ context, mutate Self.myModifierSelf (.boolExpr .andExpr args)
        Self.makeContextOptimizerSelf =
          some (.boolExpr .andExpr (args.map (Self.strip none)), context) ∧
      ((∀ relids : List Oid, relids.length = n →
          ∃ q', optimizeExist (selectFrom targetList relids (.boolExpr .andExpr args)) = some q' ∧
            s ∈ nested q'.quals ∧ v ∈ Self.ownReferences q'.targetList q'.quals ∧
            denoted q'.rtable v = relids[v.varno - 1]?.map (·, v.varattno)) ↔
        (∀ t ∈ context.alreadyConstrainRel, Self.placeOf t < n) ∧
          Self.followed targetList (v.varno - 1) context.alreadyConstrainRel v.varattno =
            some v.varattno ∧
          Spares v.varno (components n (.boolExpr .andExpr (args.map (Self.strip none)))
            ).listComposantesConnexes) := by
  obtain ⟨context, hmodify, _, hexpr⟩ := modify_conjuncts (fun a ha => (hargs a ha).modifies)
    fun a ha => (hargs a ha).isExpression_moved
  refine ⟨context, hmodify, ?_⟩
  have hstrip := List.forall_mem_map.mpr fun a ha => (hargs a ha).strip
  have hpending := pending_components htarget hstrip
  have hs' : s ∈ nestedList (args.map (Self.strip none)) := by
    rw [nestedList_eq_flatMap] at hs ⊢
    rw [List.flatMap_map, List.flatMap_congr fun a ha => (hargs a ha).nested_strip]
    exact hs
  have hlengths : ∀ relids : List Oid, relids.length = n →
      (Self.constrained targetList context.alreadyConstrainRel relids).length =
        (List.range' 1 n).length := by
    simp [Self.constrained]
  rw [spares_iff_sparedIn hpending.nodup hpending.subset]
  constructor
  · intro hkeeps
    -- the tables are numbered, so that each is another one
    have hlength : (List.range' 1 n).length = n := List.length_range'
    obtain ⟨q', hq', -, -, hdenoted⟩ := hkeeps (List.range' 1 n) hlength
    rw [optimizeExist_given htarget hargs (by omega) hmodify hexpr hlength] at hq'
    split at hq'
    · next hplaced =>
      obtain ⟨hsublist, hspared⟩ := hpending.sparedIn (hlengths _ hlength)
        (constrained_nodup targetList context.alreadyConstrainRel n) hq'
      rw [getElem?_numbers (by omega), Nat.sub_add_cancel hfrom.1] at hdenoted
      obtain ⟨⟨rte, hbefore, hafter⟩, hfollowed⟩ := denoted_own hsublist hdenoted
      refine ⟨hplaced, hfollowed, ?_⟩
      have hspares := hspared _ rte hbefore hafter
      rwa [Nat.sub_add_cancel hfrom.1] at hspares
    · cases hq'
  · rintro ⟨hplaced, hfollowed, hspared⟩ relids hlength
    obtain ⟨q', hq', hnested, hplaces⟩ := hpending.keeps (hlengths relids hlength)
    obtain ⟨relid, hrelid⟩ : ∃ relid, relids[v.varno - 1]? = some relid :=
      ⟨_, List.getElem?_eq_getElem (by omega)⟩
    refine ⟨q', ?_, hnested s hs', ?_, ?_⟩
    · rw [optimizeExist_given htarget hargs (by omega) hmodify hexpr hlength, if_pos hplaced]
      exact hq'
    · refine List.mem_filter.mpr ⟨List.mem_append_right _ ?_, by simpa using hlevel⟩
      exact references_nested q'.quals (hnested s hs') hv
    · have hentry : entryAt q'.rtable v.varno = some (Self.wraps targetList (v.varno - 1)
          context.alreadyConstrainRel (baseTable relid)) := by
        rw [entryAt_of_pos _ hfrom.1, hplaces _ hspared _ (by omega), Self.constrained_getElem?,
          hrelid]
        rfl
      rw [denoted_wraps hentry, hfollowed, hrelid]
      rfl

end Query

/-- `EXISTS (SELECT FROM t WHERE t.a = x.a)`, with the FROM entry `i` of the enclosing query for
`x` -/
def refersTo (i : Nat) : Node Int :=
  .subLink .existsSublink .null (.query [] [baseTable 9] [1]
    (.opExpr 96 [.var ⟨1, 1, 0⟩, .var ⟨i, 1, 1⟩]))

/-- `o.a = x.a` for the enclosing table `o` and the FROM entry `i` for `x`, and a sub-select that
refers to `x` -/
def correlatedNested (i : Nat) : List (Node Int) :=
  [.opExpr 96 [.var ⟨1, 1, 1⟩, .var ⟨i, 1, 0⟩], refersTo i]

theorem correlatedNested_given {i : Nat} (hi : 1 ≤ i ∧ i ≤ 2) :
    ∀ a ∈ correlatedNested i, Given 2 a := by
  simp only [correlatedNested, List.forall_mem_cons]
  exact ⟨.conjunct (.comparison (.column fun h => by cases h) (.column fun _ => hi)),
    .conjunct .exist, by simp⟩

/-- The second FROM entry is taken out, and the sub-select refers to the first. -/
theorem optimizeExist_nested_iff_first :
    (components 2 (.boolExpr .andExpr (correlatedNested 1))).listComposantesConnexes = [[2]] ∧
      ∀ relids : List Oid, relids.length = 2 →
        ∃ q', optimizeExist (selectFrom [] relids (.boolExpr .andExpr (correlatedNested 1))) =
            some q' ∧
          refersTo 1 ∈ nested q'.quals ∧ ⟨1, 1, 0⟩ ∈ Self.ownReferences q'.targetList q'.quals ∧
          denoted q'.rtable ⟨1, 1, 0⟩ = relids[1 - 1]?.map (·, 1) := by
  obtain ⟨context, hmodify, hiff⟩ := optimizeExist_nested_iff (rfl : Node.areExpressions [] = true)
    (correlatedNested_given (i := 1) (by decide)) (s := refersTo 1) (v := ⟨1, 1, 0⟩)
    (by simp [correlatedNested, nestedList, nested, refersTo]) (by decide) rfl (by decide)
  have hnone : (mutate Self.myModifierSelf (.boolExpr .andExpr (correlatedNested 1))
      Self.makeContextOptimizerSelf).map (·.2.alreadyConstrainRel) = some [] := rfl
  rw [hmodify] at hnone
  have hrel : context.alreadyConstrainRel = [] := Option.some.inj hnone
  refine ⟨by decide, hiff.mpr ?_⟩
  rw [hrel]
  refine ⟨by simp, rfl, ?_⟩
  have hcomponents : (components 2 (.boolExpr .andExpr ((correlatedNested 1).map
      (Self.strip none)))).listComposantesConnexes = [[2]] := by decide
  rw [hcomponents]
  exact spares_of_ascending (by decide) (by decide) (by decide)

/-- The first FROM entry is taken out; the sub-select goes on referring to the second one, of which
there is none.  In `SELECT x.b FROM x WHERE o.a = x.a AND x.b = 1 AND EXISTS (...)` nothing is taken
out, but the sub-select gets `x.b` for `x.a`. -/
theorem optimizeExist_nested_fails :
    (∃ q', optimizeExist (selectFrom [] [1, 2] (.boolExpr .andExpr (correlatedNested 2))) =
          some q' ∧
        refersTo 2 ∈ nested q'.quals ∧ ⟨2, 1, 0⟩ ∈ references (refersTo 2) ∧
        denoted q'.rtable ⟨2, 1, 0⟩ = none) ∧
      ∃ q', optimizeExist (selectFrom [.targetEntry (.var ⟨1, 2, 0⟩) 1] [1] (.boolExpr .andExpr
          (.opExpr 96 [.var ⟨1, 2, 0⟩, .const (some 1)] :: correlatedNested 1))) = some q' ∧
        refersTo 1 ∈ nested q'.quals ∧ denoted q'.rtable ⟨1, 1, 0⟩ = some (1, 2) := by
  exact ⟨⟨_, rfl, List.mem_cons_self, by decide, rfl⟩, _, rfl, List.mem_cons_self, rfl⟩

end Infed.Exist
