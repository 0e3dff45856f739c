import Infed.Self.Attached

/-! Conjuncts on the columns of enclosing queries.  `my_modifier_self` judges them like the others,
and `rewrite_self` puts the ones it takes out into a FROM entry by `varno` alone, one query deeper,
with the `varlevelsup` that they had. -/

namespace Infed.Self

variable {α : Type} {targetList rtable : List (Node α)} {quals : Node α}

/-! ### What a column denotes -/

/-- The column that a reference denotes, `depth` queries below the one it is counted from: query
level, FROM entry, and attribute; none for a reference to one of the queries below. -/
def denotes (depth : Nat) (v : Var) : Option (Nat × Nat × Nat) :=
  if v.varlevelsup < depth then none else some (v.varlevelsup - depth, v.varno, v.varattno)

/-- The condition has columns, all of enclosing queries. -/
def Outer (a : Node α) : Prop := columnsOf a ≠ [] ∧ ∀ v ∈ columnsOf a, 1 ≤ v.varlevelsup

mutual

/-- The conjuncts of a constraint. -/
def conjunctsOf : Node α → List (Node α)
  | .boolExpr .andExpr args => conjunctsOfList args
  | .list elems => conjunctsOfList elems
  | node => [node]

def conjunctsOfList : List (Node α) → List (Node α)
  | [] => []
  | node :: nodes => conjunctsOf node ++ conjunctsOfList nodes

end

/-- The constraints of a FROM entry that has been replaced, `depth` replacements inside the last
one. -/
def constraintsAt : Nat → Node α → List (Node α)
  | 0, .rangeTblEntry .rteSubquery _ (.query _ _ _ quals) => conjunctsOf quals
  | depth + 1, .rangeTblEntry .rteSubquery _ (.query _ [rte] _ _) => constraintsAt depth rte
  | _, _ => []

/-- What has become of the conjunct `a` in the query `q'`, and how many queries below it is: it is
in its place, or `modif_rel` has made a constraint of a FROM entry of it. -/
inductive Becomes (q' : Node α) (path : List Nat) (a : Node α) : Nat → Node α → Prop where
  | stays {b} : argAt path q'.quals = some b → b ≠ .null → Becomes q' path a 0 b
  | moves {b rte depth} : argAt path q'.quals = some .null → rte ∈ q'.rtable →
    mutate modifRel a () = some (b, ()) → b ∈ constraintsAt depth rte →
    Becomes q' path a (depth + 1) b

/-- The conjunct is evaluated on the columns that it was evaluated on. -/
def KeepsColumns (q' : Node α) (path : List Nat) (a : Node α) : Prop :=
  ∃ depth b, Becomes q' path a depth b ∧
    (columnsOf b).map (denotes depth) = (columnsOf a).map (denotes 0)

/-- Queries deeper, the column of a moved conjunct is another one. -/
theorem denotes_moved {v : Var} (h : 1 ≤ v.varlevelsup) (depth : Nat) :
    denotes (depth + 1) (toFirst v) ≠ denotes 0 v := by
  simp only [denotes, toFirst, Nat.not_lt_zero, if_false]
  by_cases hlt : v.varlevelsup < depth + 1
  · simp [hlt]
  · simp only [hlt, if_false, ne_eq, Option.some.injEq, Prod.mk.injEq, not_and]
    omega

/-! ### Conjuncts -/

/-- A conjunct is stripped as if it were the whole WHERE. -/
theorem argAt_strip {path : List Nat} {a : Node α} (h : argAt path quals = some a)
    (hands : throughAnds path quals = true) :
    argAt path (strip none quals) = some (strip none a) := by
  induction path generalizing quals with
  | nil =>
    cases h
    rw [argAt]
  | cons i path ih =>
    unfold throughAnds at hands
    split at hands
    · next heq => cases heq
    · next j rest args heq =>
      cases heq
      obtain ⟨b, hb, hrest⟩ := Option.bind_eq_some_iff.mp h
      rw [hb, Option.elim_some] at hands
      rw [strip_and, argAt, List.getElem?_map, hb, Option.map_some, Option.bind_some]
      exact ih hrest hands
    · cases hands

/-- A conjunct of a condition is a condition, and only conjuncts are taken out of it if only
conjuncts are taken out of the whole; and what is taken out of it is among what is taken out. -/
theorem conjunct_of_argAt (hquals : Condition quals) {path : List Nat} {a : Node α}
    (h : argAt path quals = some a) (hands : throughAnds path quals = true) :
    Condition a ∧ (onlyConjuncts quals = true → onlyConjuncts a = true) ∧
      ∀ t ∈ moved none a, t ∈ moved none quals := by
  induction path generalizing quals with
  | nil =>
    cases h
    exact ⟨hquals, id, fun _ ht => ht⟩
  | cons i path ih =>
    unfold throughAnds at hands
    split at hands
    · next heq => cases heq
    · next j rest args heq =>
      cases heq
      obtain ⟨b, hb, hrest⟩ := Option.bind_eq_some_iff.mp h
      rw [hb, Option.elim_some] at hands
      cases hquals with
      | bool hargs =>
        obtain ⟨hcondition, honly, hmoved⟩ := ih (hargs b (List.mem_of_getElem? hb)) hrest hands
        refine ⟨hcondition, fun hall => honly ?_, fun t ht => ?_⟩
        · rw [onlyConjuncts, onlyConjunctsList_iff] at hall
          exact hall i b hb
        · rw [moved_and]
          exact List.mem_flatMap.mpr ⟨b, List.mem_of_getElem? hb, hmoved t ht⟩
    · cases hands

theorem exists_column_of_takes {t : Node α} (h : takes t = true) : ∃ v, v ∈ columnsOf t := by
  cases hcolumns : columnsOf t with
  | nil =>
    rw [takes, hcolumns] at h
    cases h
  | cons v vs => exact ⟨v, List.mem_cons_self⟩

theorem exists_column_of_mem_ite {a t : Node α} {b : Bool} (hb : b = true → takes a = true)
    (ht : t ∈ if b then [a] else []) : ∃ v ∈ columnsOf t, v ∈ columnsOf a := by
  split at ht
  · next htakes =>
    obtain rfl := List.mem_singleton.mp ht
    obtain ⟨v, hv⟩ := exists_column_of_takes (hb htakes)
    exact ⟨v, hv, hv⟩
  · cases ht

/-- Where only conjuncts are taken out, each has a column of the condition. -/
theorem moved_column {node : Node α} (h : Condition node) (honly : onlyConjuncts node = true)
    {t : Node α} (ht : t ∈ moved none node) : ∃ v ∈ columnsOf t, v ∈ columnsOf node := by
  induction h with
  | comparison _ | nullTest _ => exact exists_column_of_mem_ite id (by simpa [moved] using ht)
  | exist => cases ht
  | @bool boolop args hargs ih =>
    cases boolop with
    | notExpr =>
      have hnone : movedList none args = [] := List.isEmpty_iff.mp honly
      exact absurd (hnone ▸ ht : t ∈ []) List.not_mem_nil
    | orExpr =>
      have hnone : movedList (some ⟨false, []⟩) args = [] := List.isEmpty_iff.mp honly
      rw [moved, flag, hnone, List.nil_append] at ht
      refine exists_column_of_mem_ite (fun htakes => ?_) ht
      rw [takesOr, Bool.and_eq_true] at htakes
      exact htakes.2
    | andExpr =>
      rw [moved_and] at ht
      obtain ⟨a, ha, hta⟩ := List.mem_flatMap.mp ht
      rw [onlyConjuncts, onlyConjunctsList_iff] at honly
      obtain ⟨i, hi⟩ := List.mem_iff_getElem?.mp ha
      obtain ⟨v, hv, hva⟩ := ih a ha (honly i a hi) hta
      exact ⟨v, hv, mem_columnsOfList.mpr ⟨a, ha, hva⟩⟩

/-- A conjunct on enclosing queries stays where it is if the constraints are on columns of the
query. -/
theorem Transfers.outer_stays (h : Transfers targetList rtable quals) (hquals : IsWhere quals)
    {path : List Nat} {a : Node α} (ha : argAt path quals = some a)
    (hands : throughAnds path quals = true) (houter : Outer a) :
    argAt path (strip none quals) = some a := by
  rcases hquals with rfl | hquals
  · cases path with
    | nil =>
      cases ha
      exact absurd rfl houter.1
    | cons => cases ha
  obtain ⟨hcondition, honly, hmoved⟩ := conjunct_of_argAt hquals ha hands
  obtain ⟨rel, hrel, hholds⟩ := addConstraints_holds (moved_condition hquals none)
  have hnone : moved none a = [] := by
    refine List.eq_nil_iff_forall_not_mem.mpr fun t ht => ?_
    -- a column of what is taken out is among the columns of the constraints, all of level 0
    obtain ⟨v, hvt, hva⟩ := moved_column hcondition (honly h.conjuncts) ht
    obtain ⟨u, hu, hvu⟩ := mem_columnsOfList.mp
      (hholds.columns v (mem_columnsOfList.mpr ⟨t, hmoved t ht, hvt⟩))
    obtain ⟨before, after, rfl⟩ := List.append_of_mem hu
    have hlevel := ((h.attached before u after hrel).columns v
      ((mem_references (hholds.entry u hu).isExpression).mpr (.inl hvu))).1
    have := houter.2 v hva
    omega
  rw [argAt_strip ha hands, strip_of_moved hcondition none hnone]

/-! ### The query -/

/-- The WHERE after `optimize_self_constraint`. -/
theorem quals_optimizeSelfConstraint (htarget : Node.areExpressions targetList = true)
    (hquals : IsWhere quals) {fromlist : List Nat} {q' : Node α}
    (hq' : optimizeSelfConstraint (.query targetList rtable fromlist quals) = some q') :
    q'.quals = strip none quals := by
  obtain ⟨context, hrun, _, hexpr⟩ :=
    hquals.modifies.run fun t ht => (hquals.moved t ht).isExpression
  rw [optimizeSelfConstraint_eq htarget hrun hexpr] at hq'
  split at hq'
  · cases hq'
    rfl
  · cases hq'

/-- A comparison, a null test or an OR of them on enclosing queries keeps its columns exactly if it
stays. -/
theorem keepsColumns_iff {q' a : Node α} {path : List Nat} (hq' : q'.quals = strip none quals)
    (ha : argAt path quals = some a) (hands : throughAnds path quals = true) (hclause : Clause a)
    (houter : Outer a) : KeepsColumns q' path a ↔ takes a = false := by
  have hplace : argAt path q'.quals = some (if takes a then .null else a) := by
    rw [hq', argAt_strip ha hands, hclause.strip_eq]
  have hnull : a ≠ .null := by
    rintro rfl
    exact houter.1 rfl
  constructor
  · rintro ⟨depth, b, hbecomes, hcolumns⟩
    by_contra htakes
    rw [Bool.not_eq_false] at htakes
    rw [htakes, if_pos rfl] at hplace
    cases hbecomes with
    | stays hb hne => exact hne (Option.some.inj (hb.symm.trans hplace))
    | @moves b rte depth _ _ hmodif _ =>
      rw [modifRel_maps.mutate a hclause.condition.isExpression] at hmodif
      cases hmodif
      rw [columnsOf_mapColumns, List.map_map] at hcolumns
      obtain ⟨hne, hlevel⟩ := houter
      obtain ⟨v, vs, hvs⟩ := List.exists_cons_of_ne_nil hne
      rw [hvs] at hcolumns hlevel
      exact denotes_moved (hlevel v List.mem_cons_self) depth (List.cons.inj hcolumns).1
  · intro htakes
    rw [htakes] at hplace
    exact ⟨0, a, .stays hplace hnull, rfl⟩

/-- If what is taken out of the WHERE of a sub-select is conjoined to it, `add_constrain` conjoins,
each constraint has its columns in the FROM entry that it is attached to, and what is left finds its
columns, then the conjuncts on enclosing queries stay and the rows are the same.  Whatever the
sub-select is, such a conjunct keeps its columns exactly if it has the last one of another table
than the first one. -/
theorem outer_kept (htarget : Node.areExpressions targetList = true) (hquals : IsWhere quals) :
    (Transfers targetList rtable quals →
      ∃ q', optimizeSelfConstraint
          (.query targetList rtable (List.range' 1 rtable.length) quals) = some q' ∧
        (∀ path a, argAt path quals = some a → throughAnds path quals = true → Outer a →
          argAt path q'.quals = some a) ∧
        ∀ I D ρ, evalQuery I D q' ρ =
          evalQuery I D (.query targetList rtable (List.range' 1 rtable.length) quals) ρ) ∧
    ∀ fromlist q', optimizeSelfConstraint (.query targetList rtable fromlist quals) = some q' →
      ∀ path a, argAt path quals = some a → throughAnds path quals = true → Clause a → Outer a →
        (KeepsColumns q' path a ↔ takes a = false) := by
  refine ⟨fun h => ?_, fun fromlist q' hq' path a ha hands hclause houter => ?_⟩
  · obtain ⟨rel, _, _, hq', hrows⟩ := optimizeSelfConstraint_transfers htarget hquals h
    exact ⟨_, hq', fun path a ha hands houter => h.outer_stays hquals ha hands houter, hrows⟩
  · exact keepsColumns_iff (quals_optimizeSelfConstraint htarget hquals hq') ha hands hclause houter

/-- `s.b = 3` -/
def onOwn : Node Int := .opExpr 96 [.var ⟨1, 2, 0⟩, .const (some 3)]

/-- `s.b = 3 AND s.a = outer1.a AND outer1.b = outer2.c`, in a sub-select over `s` -/
def staying : Node Int := .boolExpr .andExpr [onOwn,
  .opExpr 96 [.var ⟨1, 1, 0⟩, .var ⟨1, 1, 1⟩], .opExpr 96 [.var ⟨1, 2, 1⟩, .var ⟨2, 3, 1⟩]]

/-- `SELECT s.a, s.b, 1` -/
def stayingTargets : List (Node Int) := [.targetEntry (.var ⟨1, 1, 0⟩) 1,
  .targetEntry (.var ⟨1, 2, 0⟩) 2, .targetEntry (.const (some 1)) 3]

theorem staying_where : IsWhere staying := by
  have hterm : ∀ v, Term (.var v : Node Int) := fun _ => .column
  refine .inr (.bool fun a ha => ?_)
  simp only [List.mem_cons, List.not_mem_nil, or_false] at ha
  rcases ha with rfl | rfl | rfl
  · exact .comparison (by simpa using ⟨hterm _, .constant⟩)
  · exact .comparison (by simpa using ⟨hterm _, hterm _⟩)
  · exact .comparison (by simpa using ⟨hterm _, hterm _⟩)

theorem staying_transfers : Transfers stayingTargets [baseTable 1] staying := by
  have hmoved : moved none staying = [onOwn] := rfl
  refine ⟨rfl, fun pre c post hsplit rel hrun => ?_, fun before t after hrun => ?_,
    fun rel hrun => ?_⟩
  · rw [hmoved] at hsplit
    obtain ⟨rfl, rfl, rfl⟩ : pre = [] ∧ c = onOwn ∧ post = [] := by
      cases pre <;> simp_all
    cases hrun
    rfl
  · have hrel : some [onOwn] = some (before ++ t :: after) := hrun
    obtain ⟨rfl, rfl, rfl⟩ : before = [] ∧ t = onOwn ∧ after = [] := by
      cases before <;> simp_all
    refine ⟨by decide, fun v hv => ?_, .inl rfl, fun rte hrte => ?_⟩
    · obtain rfl : v = ⟨1, 2, 0⟩ := List.mem_singleton.mp hv
      exact ⟨rfl, rfl, rfl⟩
    · cases hrte
      exact closed_of_references rfl
  · obtain rfl : [onOwn] = rel := Option.some.inj hrun
    decide

/-- The constraint moves, and the conjuncts on enclosing tables stay. -/
theorem outer_kept_staying :
    Transfers stayingTargets [baseTable 1] staying ∧
    (Transfers stayingTargets [baseTable 1] staying →
      ∃ q', optimizeSelfConstraint (.query stayingTargets [baseTable 1]
          (List.range' 1 [(baseTable 1 : Node Int)].length) staying) = some q' ∧
        (∀ path a, argAt path staying = some a → throughAnds path staying = true → Outer a →
          argAt path q'.quals = some a) ∧
        ∀ I D ρ, evalQuery I D q' ρ = evalQuery I D (.query stayingTargets [baseTable 1]
          (List.range' 1 [(baseTable 1 : Node Int)].length) staying) ρ) ∧
    ∀ fromlist q',
      optimizeSelfConstraint (.query stayingTargets [baseTable 1] fromlist staying) = some q' →
      ∀ path a, argAt path staying = some a → throughAnds path staying = true → Clause a →
        Outer a → (KeepsColumns q' path a ↔ takes a = false) :=
  ⟨staying_transfers, outer_kept rfl staying_where⟩

/-- `SELECT * FROM r WHERE outer.a IS NULL`, for the FROM entry `varno` of the enclosing query -/
def onOuter (varno : Nat) : Node Int :=
  selectFrom (selectStar (.nullable 1) [1]) [1]
    (.boolExpr .andExpr [.nullTest .isNull (.var ⟨varno, 1, 1⟩)])

/-- For an enclosing row that is not NULL, the sub-select returns no row before and the row of `r`
after; and for the second FROM entry of the enclosing query there is no entry of `r` to restrict. -/
theorem outer_kept_fails :
    (∃ q', optimizeSelfConstraint (onOuter 1) = some q' ∧
      evalQuery intInterp (fun _ => [[some 7]]) (onOuter 1) ⟨[[(1, [some 5])]], []⟩ = [] ∧
      evalQuery intInterp (fun _ => [[some 7]]) q' ⟨[[(1, [some 5])]], []⟩ = [[some 7]]) ∧
    optimizeSelfConstraint (onOuter 2) = none :=
  ⟨⟨_, rfl, by decide +kernel, by decide +kernel⟩, rfl⟩

end Infed.Self
