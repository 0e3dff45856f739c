import Infed.Codd.Sets
import Infed.Codd.Weaken
import Infed.Marked.Pass

/-! The sets that `my_walker` records for marked nulls.  Only `<>` rejects marked nulls, so only its
columns should be collected; but the flag that it sets stays set, and the columns of a later
comparison with another operator join those of the last `<>`.  Where they add nothing to these, the
walk is that of the Codd pass over the condition with its other comparisons left out. -/

namespace Infed.Marked

open CellList Heap

variable {cat : Catalog} {os : Scopes}

/-! ### Conditions without other comparisons -/

mutual

/-- The condition with `<>` (OID 518) as its only comparison. -/
def inequalities : Node Int → Node Int
  | .opExpr opno args => if opno = 518 then .opExpr opno args else .null
  | .boolExpr boolop args => .boolExpr boolop (inequalitiesList args)
  | .subLink kind testexpr subselect => .subLink kind testexpr (inequalities subselect)
  | .query targetList rtable fromlist quals =>
    .query targetList rtable fromlist (inequalities quals)
  | node => node

def inequalitiesList : List (Node Int) → List (Node Int)
  | [] => []
  | node :: nodes => inequalities node :: inequalitiesList nodes

end

theorem inequalitiesList_eq_map (nodes : List (Node Int)) :
    inequalitiesList nodes = nodes.map inequalities := by
  induction nodes with
  | nil => rfl
  | cons node nodes ih => rw [inequalitiesList, ih, List.map_cons]

theorem inequalities_existsFrom (targetList : List (Node Int)) (relids : List Oid)
    (quals : Node Int) :
    inequalities (existsFrom targetList relids quals) =
      existsFrom targetList relids (inequalities quals) := rfl

theorem forall_mem_inequalitiesList {p : Node Int → Prop} {nodes : List (Node Int)} :
    (∀ a ∈ inequalitiesList nodes, p a) ↔ ∀ a ∈ nodes, p (inequalities a) := by
  rw [inequalitiesList_eq_map, List.forall_mem_map]

theorem inequalitiesList_ne_nil {nodes : List (Node Int)} (h : nodes ≠ []) :
    inequalitiesList nodes ≠ [] := by
  rw [inequalitiesList_eq_map]
  simpa using h

theorem cond_inequalities {a : Node Int} (h : Cond (Atom cat) True os a) :
    Cond (Atom cat) True os (inequalities a) := by
  induction h with
  | leaf ha =>
    cases ha with
    | comparison hargs =>
      rw [inequalities]
      split
      · exact .leaf (.comparison hargs)
      · exact .null
    | nullTest harg => exact .leaf (.nullTest harg)
  | null => exact .null
  | and hargs _ ih =>
    exact .and (inequalitiesList_ne_nil hargs) (forall_mem_inequalitiesList.mpr ih)
  | or hargs _ ih =>
    exact .or (inequalitiesList_ne_nil hargs) (forall_mem_inequalitiesList.mpr ih)
  | not _ _ ih => exact .not (.inl trivial) ih
  | exist _ ih => exact .exist ih

/-! ### Columns of other comparisons -/

mutual

/-- Every comparison with another operator and every null test that comes after a `<>`, with `last`
for those before the tree, has columns of the last one only. -/
def settled : Scopes → Option (Finset Column) → Node Int → Bool
  | os, last, .opExpr opno args =>
    opno == 518 ||
      args.all fun a => (operandColumn os a).all fun col => last.all fun cols => col ∈ cols
  | os, last, .nullTest _ arg =>
    (operandColumn os arg).all fun col => last.all fun cols => col ∈ cols
  | os, last, .boolExpr _ args => settledList os last args
  | os, last, .subLink _ _ subselect => settled os last subselect
  | os, last, .query _ rtable _ quals => settled (rtable.map relidOf :: os) last quals
  | _, _, _ => true

def settledList : Scopes → Option (Finset Column) → List (Node Int) → Bool
  | _, _, [] => true
  | os, last, node :: nodes =>
    settled os last node &&
      settledList os ((Codd.lastComparison os (inequalities node)).or last) nodes

end

theorem coveredList_inequalities {nodes : List (Node Int)}
    (hnodes : ∀ a ∈ nodes, ∀ last, settled os last a = true →
      Codd.covered os last (inequalities a) = true) {last : Option (Finset Column)}
    (h : settledList os last nodes = true) :
    Codd.coveredList os last (inequalitiesList nodes) = true := by
  induction nodes generalizing last with
  | nil => rfl
  | cons a nodes ih =>
    rw [settledList, Bool.and_eq_true] at h
    rw [inequalitiesList, Codd.coveredList, Bool.and_eq_true]
    exact ⟨hnodes a List.mem_cons_self _ h.1, ih (fun b hb => hnodes b (List.mem_cons_of_mem _ hb))
      h.2⟩

theorem covered_inequalities {a : Node Int} (h : Cond (Atom cat) True os a)
    {last : Option (Finset Column)} (hsettled : settled os last a = true) :
    Codd.covered os last (inequalities a) = true := by
  induction h generalizing last with
  | leaf ha =>
    cases ha with
    | comparison _ =>
      rw [inequalities]
      split <;> rfl
    | nullTest _ => exact hsettled
  | null => rfl
  | and _ _ ih | or _ _ ih => exact coveredList_inequalities (fun b hb last => ih b hb) hsettled
  | @not os a _ _ ih =>
    exact coveredList_inequalities (List.forall_mem_singleton.mpr fun _ => ih) hsettled
  | exist _ ih =>
    rw [existsFrom, selectFrom, settled, settled, map_relidOf_baseTable] at hsettled
    rw [inequalities_existsFrom, existsFrom, selectFrom, Codd.covered, Codd.covered,
      map_relidOf_baseTable]
    exact ih hsettled

/-! ### The same walk -/

theorem myWalkerList_congr {P P' : Pass Int} {nodes : List (Node Int)}
    (h : ∀ a ∈ nodes, ∀ c, P.myWalker cat a c = P'.myWalker cat a c)
    (c : ContextWalkerSetConstraint) :
    P.myWalkerList cat nodes c = P'.myWalkerList cat nodes c := by
  induction nodes generalizing c with
  | nil => rfl
  | cons a nodes ih =>
    rw [Pass.myWalkerList, Pass.myWalkerList, h a List.mem_cons_self]
    exact congrArg _ (funext fun c => ih (fun b hb => h b (List.mem_cons_of_mem _ hb)) c)

theorem myWalkerList_unchanged {P : Pass Int} {nodes : List (Node Int)}
    {c : ContextWalkerSetConstraint} (h : ∀ a ∈ nodes, P.myWalker cat a c = some c) :
    P.myWalkerList cat nodes c = some c := by
  induction nodes with
  | nil => rfl
  | cons a nodes ih =>
    rw [Pass.myWalkerList, h a List.mem_cons_self]
    exact ih fun b hb => h b (List.mem_cons_of_mem _ hb)

theorem myWalker_operand_eq (P P' : Pass Int) {a : Node Int} (ha : Operand cat os a)
    (c : ContextWalkerSetConstraint) : P.myWalker cat a c = P'.myWalker cat a c := by
  cases ha <;> simp only [Pass.myWalker]

theorem openQuery_eq (P P' : Pass Int) (relids : List Oid) (c : ContextWalkerSetConstraint) :
    P.openQuery cat (relids.map baseTable) c = P'.openQuery cat (relids.map baseTable) c := by
  have htables : ∀ a ∈ relids.map baseTable, ∀ c, P.myWalker cat a c = P'.myWalker cat a c :=
    List.forall_mem_map.mpr fun _ _ _ => rfl
  rw [Pass.openQuery, Pass.openQuery, myWalkerList_congr htables]

/-- From every context before the node, the walker does what that of the Codd pass does with the
condition without other comparisons. -/
def WalksAs (cat : Catalog) (os : Scopes) (node : Node Int) : Prop :=
  ∀ c last asT asF, Codd.Collected cat os last asT asF c → settled os last node = true →
    pass.myWalker cat node c = Codd.pass.myWalker cat (inequalities node) c

theorem walksAs_comparison {opno : Oid} {args : List (Node Int)}
    (hargs : ∀ a ∈ args, Operand cat os a) : WalksAs cat os (.opExpr opno args) := by
  intro c last asT asF h hsettled
  rw [inequalities]
  split
  · next hop =>
    have hcollects : pass.collects opno = true := by
      rw [hop]
      rfl
    have hcodd : Codd.pass.collects (α := Int) opno = true := rfl
    simp only [Pass.myWalker, Pass.openOpExpr, hcollects, hcodd, if_true]
    rw [myWalkerList_congr fun a ha => myWalker_operand_eq pass Codd.pass (hargs a ha)]
  · next hop =>
    -- no column is new, so that nothing changes
    have hknown := (Bool.or_eq_true _ _).mp hsettled |>.resolve_left (by simpa using hop)
    have hcollects : pass.collects opno = false := by simpa [pass] using hop
    simp only [Pass.myWalker, Pass.openOpExpr, hcollects, Bool.false_eq_true, if_false]
    rw [myWalkerList_unchanged fun a ha =>
      h.known pass (hargs a ha) (List.all_eq_true.mp hknown a ha)]
    rfl

theorem walksAsList {nodes : List (Node Int)} (hcond : ∀ a ∈ nodes, Cond (Atom cat) True os a)
    (hnodes : ∀ a ∈ nodes, WalksAs cat os a) {c : ContextWalkerSetConstraint}
    {last : Option (Finset Column)} {asT asF : List Nat}
    (h : Codd.Collected cat os last asT asF c) (hsettled : settledList os last nodes = true) :
    pass.myWalkerList cat nodes c = Codd.pass.myWalkerList cat (inequalitiesList nodes) c := by
  induction nodes generalizing c last asT asF with
  | nil => rfl
  | cons a nodes ih =>
    rw [settledList, Bool.and_eq_true] at hsettled
    have ha := hcond a List.mem_cons_self
    obtain ⟨c1, bsT, bsF, hrun, r⟩ := Codd.records_cond (cond_inequalities ha) c last asT asF h
      (covered_inequalities ha hsettled.1)
    rw [inequalitiesList, Pass.myWalkerList, Pass.myWalkerList,
      hnodes a List.mem_cons_self c last asT asF h hsettled.1, hrun]
    exact ih (fun b hb => hcond b (List.mem_cons_of_mem _ hb))
      (fun b hb => hnodes b (List.mem_cons_of_mem _ hb)) (r.collected h) hsettled.2

theorem walksAs_boolExpr {boolop : BoolExprType} {args : List (Node Int)}
    (hcond : ∀ a ∈ args, Cond (Atom cat) True os a) (hargs : ∀ a ∈ args, WalksAs cat os a) :
    WalksAs cat os (.boolExpr boolop args) := by
  intro c last asT asF h hsettled
  have hlist := walksAsList hcond hargs h.open hsettled
  have hlength : (inequalitiesList args).length = args.length := by
    rw [inequalitiesList_eq_map, List.length_map]
  have hempty : (inequalitiesList args).isEmpty = args.isEmpty := by
    rw [inequalitiesList_eq_map, List.isEmpty_map]
  simp only [inequalities, Pass.myWalker, hlist, hlength, hempty]

theorem walksAs_selectFrom {targetList : List (Node Int)} {relids : List Oid} {quals : Node Int}
    (hquals : WalksAs cat (relids :: os) quals) :
    WalksAs cat os (selectFrom targetList relids quals) := by
  intro c last asT asF h hsettled
  rw [selectFrom, settled, map_relidOf_baseTable] at hsettled
  obtain ⟨schema, hopen, _⟩ := Codd.pass.openQuery_baseTables (α := Int) cat relids c
  show pass.myWalker cat (selectFrom targetList relids quals) c =
    Codd.pass.myWalker cat (selectFrom targetList relids (inequalities quals)) c
  rw [Pass.myWalker_selectFrom, Pass.myWalker_selectFrom, openQuery_eq pass Codd.pass, hopen]
  simp only [Option.bind_eq_bind, Option.bind_some]
  rw [hquals _ last asT asF (h.enter relids schema) hsettled]

theorem walksAs_cond {node : Node Int} (h : Cond (Atom cat) True os node) :
    WalksAs cat os node := by
  induction h with
  | leaf ha =>
    cases ha with
    | comparison hargs => exact walksAs_comparison hargs
    | @nullTest test arg harg =>
      intro c _ _ _ _ _
      show pass.myWalker cat (.nullTest test arg) c = Codd.pass.myWalker cat (.nullTest test arg) c
      rw [Pass.myWalker, Pass.myWalker]
      rw [myWalker_operand_eq pass Codd.pass harg]
  | null => exact fun _ _ _ _ _ _ => rfl
  | and _ hargs ih | or _ hargs ih => exact walksAs_boolExpr hargs ih
  | not _ ha ih => exact walksAs_boolExpr (by simpa using ha) (by simpa using ih)
  | @exist os targetList relids quals _ ih =>
    intro c last asT asF h hsettled
    have hselect : WalksAs cat os (selectFrom targetList relids quals) := walksAs_selectFrom ih
    rw [inequalities_existsFrom, existsFrom, existsFrom, Pass.myWalker, Pass.myWalker]
    exact hselect c last asT asF h hsettled

/-! ### Entries -/

/-- The columns in the cells of the entry that the walker appended to `list_list_true` for the
AND/OR node at a path, read after the whole walk. -/
def recordedTrue (cat : Catalog) (q : Node Int) (path : List Nat) : Option (Finset Column) := do
  let w ← myWalker cat q makeContextWalkerSetConstraint
  let (target, c) ← pass.walkerAt cat path q makeContextWalkerSetConstraint
  let c' ← myWalker cat target c
  let entry ← w.listListTrue[c'.listListTrue.length - 1]?
  let vars ← w.heap.foreach entry
  some (columns vars)

theorem recordedTrue_eq (targetList : List (Node Int)) {relids : List Oid} {quals : Node Int}
    (h : Cond (Atom cat) True [relids] quals) (hsettled : settled [relids] none quals = true)
    {path : List Nat} {target : Node Int}
    (hpath : nodeAt path (selectFrom targetList relids quals) = some target) :
    recordedTrue cat (selectFrom targetList relids quals) path =
      (Codd.entries true [relids] (inequalities quals) ∅ ∅)[before path
        (selectFrom targetList relids quals) + boolCount target - 1]? := by
  obtain ⟨w, hw, hT, _⟩ := Codd.walked_entries targetList (cond_inequalities h)
    (covered_inequalities h hsettled)
  obtain ⟨c, c', hc, hc', hidx, _⟩ := Codd.walkerAt_entry pass targetList h hpath
  have hsettled' : settled [] none (selectFrom targetList relids quals) = true := by
    rw [selectFrom, settled, map_relidOf_baseTable]
    exact hsettled
  have hrun : pass.myWalker cat (selectFrom targetList relids quals)
      makeContextWalkerSetConstraint = some w :=
    (walksAs_selectFrom (walksAs_cond h) _ none [] [] (Codd.collected_make cat) hsettled').trans hw
  have hstart : recordedTrue cat (selectFrom targetList relids quals) path = (do
      let entry ← w.listListTrue[c'.listListTrue.length - 1]?
      let vars ← w.heap.foreach entry
      some (columns vars)) := by
    simp only [recordedTrue, myWalker, hrun, hc, Option.bind_eq_bind, Option.bind_some]
    rw [hc', Option.bind_some]
  rw [hstart, hidx]
  exact Codd.foreach_entry hT _

/-- The columns that a marked null cannot be in where the condition is true, or, for `false`, where
it is false. -/
def constants (side : Bool) (os : Scopes) (a : Node Int) : Finset Column :=
  notNull side os (inequalities a)

theorem andOrsList_inequalities {nodes : List (Node Int)}
    (hnodes : ∀ a ∈ nodes, Codd.andOrs os (inequalities a) =
      (Codd.andOrs os a).map fun n => (n.1, inequalities n.2)) :
    Codd.andOrsList os (inequalitiesList nodes) =
      (Codd.andOrsList os nodes).map fun n => (n.1, inequalities n.2) := by
  induction nodes with
  | nil => rfl
  | cons a nodes ih =>
    rw [inequalitiesList, Codd.andOrsList, Codd.andOrsList, hnodes a List.mem_cons_self,
      ih fun b hb => hnodes b (List.mem_cons_of_mem _ hb), List.map_append]

theorem andOrs_inequalities {a : Node Int} (h : Cond (Atom cat) True os a) :
    Codd.andOrs os (inequalities a) =
      (Codd.andOrs os a).map fun n => (n.1, inequalities n.2) := by
  induction h with
  | leaf ha =>
    cases ha with
    | comparison _ =>
      rw [inequalities]
      split <;> rfl
    | nullTest _ => rfl
  | null => rfl
  | and _ _ ih | or _ _ ih =>
    simp only [inequalities, Codd.andOrs, andOrsList_inequalities ih, List.map_append,
      List.map_cons, List.map_nil]
  | @not os a _ _ ih =>
    simp only [inequalities, Codd.andOrs]
    exact andOrsList_inequalities (by simpa using ih)
  | exist _ ih =>
    rw [inequalities_existsFrom]
    simp only [existsFrom, selectFrom, Codd.andOrs, map_relidOf_baseTable]
    exact ih

/-! ### Soundness -/

/-- `<>` is true between constants only: what a marked null stands for is not known. -/
def TrueOnConstants (I : Interp Int) : Prop :=
  ∀ xs, I.test 518 xs = .true → ∀ n, some n ∈ xs → 0 ≤ n

/-- None of the columns of `K` that are in scope is a marked null. -/
def NoMark (os : Scopes) (ρ : Env Int) (K : Finset Column) : Prop :=
  ∀ v col, columnOf os v = some col → col ∈ K → ∀ n, ρ.column v = some n → 0 ≤ n

mutual

/-- The condition at a polarity: where a sub-select that counts negatively has a false-set, that is
without columns of the enclosing queries. -/
def grounded : Scopes → Bool → Node Int → Bool
  | os, p, .boolExpr .notExpr args => groundedList os (!p) args
  | os, p, .boolExpr _ args => groundedList os p args
  | os, p, .subLink _ _ subselect => grounded os p subselect
  | os, p, .query _ rtable _ quals =>
    (p || (constants false (rtable.map relidOf :: os) quals).filter
      (fun col => col.1 ∈ os.flatten) = ∅) && grounded (rtable.map relidOf :: os) p quals
  | _, _, _ => true

def groundedList : Scopes → Bool → List (Node Int) → Bool
  | _, _, [] => true
  | os, p, node :: nodes => grounded os p node && groundedList os p nodes

end

theorem groundedList_iff {p : Bool} {nodes : List (Node Int)} :
    groundedList os p nodes = true ↔ ∀ a ∈ nodes, grounded os p a = true := by
  induction nodes with
  | nil => simp [groundedList]
  | cons a nodes ih => simp [groundedList, ih]

theorem grounded_boolExpr {boolop : BoolExprType} (hop : boolop ≠ .notExpr) {p : Bool}
    {args : List (Node Int)} :
    grounded os p (.boolExpr boolop args) = true ↔ ∀ a ∈ args, grounded os p a = true := by
  cases boolop with
  | notExpr => exact absurd rfl hop
  | andExpr | orExpr =>
    rw [grounded, groundedList_iff]
    simp

section

variable {I : Interp Int} {D : Database Int} {ρ : Env Int}

theorem evalCond_joint {boolop : BoolExprType} (hop : boolop ≠ .notExpr) {p : Bool}
    (hj : joint boolop p = true) {args : List (Node Int)} :
    evalCond I D (.boolExpr boolop args) ρ = .ofBool p ↔
      ∀ a ∈ args, evalCond I D a ρ = .ofBool p := by
  cases boolop with
  | notExpr => exact absurd rfl hop
  | andExpr =>
    cases p with
    | true => exact evalCond_and_eq_true
    | false => cases hj
  | orExpr =>
    cases p with
    | true => cases hj
    | false => exact evalCond_or_eq_false

theorem evalCond_not_joint {boolop : BoolExprType} (hop : boolop ≠ .notExpr) {p : Bool}
    (hj : joint boolop p = false) {args : List (Node Int)} :
    evalCond I D (.boolExpr boolop args) ρ = .ofBool p ↔
      ∃ a ∈ args, evalCond I D a ρ = .ofBool p := by
  cases boolop with
  | notExpr => exact absurd rfl hop
  | andExpr =>
    cases p with
    | true => cases hj
    | false => exact evalCond_and_eq_false
  | orExpr =>
    cases p with
    | true => exact evalCond_or_eq_true
    | false => cases hj

theorem noMark_comparison (hI : TrueOnConstants I) (hnodup : os.flatten.Nodup)
    {args : List (Node Int)} (h : evalCond I D (.opExpr 518 args) ρ = .true) :
    NoMark os ρ (notNull true os (.opExpr 518 args)) := by
  intro v col hv hcol n hn
  rw [notNull, List.mem_toFinset, List.mem_filterMap] at hcol
  obtain ⟨a, ha, hacol⟩ := hcol
  cases a with
  | var w =>
    obtain rfl := columnOf_inj hnodup hv hacol
    rw [evalCond, evalScalars_eq_map] at h
    exact hI _ h n (List.mem_map.mpr ⟨.var v, ha, hn⟩)
  | _ => cases hacol

theorem noMark_boolExpr {boolop : BoolExprType} (hop : boolop ≠ .notExpr) {p : Bool}
    {args : List (Node Int)} (hne : args ≠ [])
    (hargs : ∀ a ∈ args, evalCond I D a ρ = .ofBool p → NoMark os ρ (constants p os a))
    (h : evalCond I D (.boolExpr boolop args) ρ = .ofBool p) :
    NoMark os ρ (constants p os (.boolExpr boolop args)) := by
  have hsets : constants p os (.boolExpr boolop args) =
      merge (joint boolop p) (args.map (constants p os)) := by
    rw [constants, inequalities, inequalitiesList_eq_map, notNull_boolExpr hop, List.map_map]
    rfl
  rw [hsets]
  intro v col hv hcol
  cases hj : joint boolop p with
  | true =>
    rw [hj, mem_merge_true] at hcol
    obtain ⟨_, hs, hcol⟩ := hcol
    obtain ⟨a, ha, rfl⟩ := List.mem_map.mp hs
    exact hargs a ha ((evalCond_joint hop hj).mp h a ha) v col hv hcol
  | false =>
    rw [hj, mem_merge_false (by simpa using hne)] at hcol
    obtain ⟨a, ha, hvalue⟩ := (evalCond_not_joint hop hj).mp h
    exact hargs a ha hvalue v col hv (hcol _ (List.mem_map_of_mem ha))

/-- Where a condition is true, or false, no column of its set is a marked null. -/
theorem constants_sound (hI : TrueOnConstants I) {a : Node Int} (h : Cond (Atom cat) True os a)
    (honce : (os.flatten ++ Codd.tables a).Nodup) {p : Bool} (hground : grounded os p a = true)
    (hp : evalCond I D a ρ = .ofBool p) : NoMark os ρ (constants p os a) := by
  have hempty : ∀ {os : Scopes} {ρ : Env Int}, NoMark os ρ ∅ :=
    fun _ _ _ hcol => absurd hcol (Finset.notMem_empty _)
  induction h generalizing ρ p with
  | leaf ha =>
    cases ha with
    | @comparison opno args _ =>
      rw [constants, inequalities]
      split
      · next hop =>
        subst hop
        cases p with
        | true => exact noMark_comparison hI honce.of_append_left hp
        | false => exact hempty
      · cases p <;> exact hempty
    | nullTest _ => cases p <;> exact hempty
  | null => cases p <;> exact hempty
  | and hne _ ih =>
    have hargs := (grounded_boolExpr (by simp)).mp hground
    exact noMark_boolExpr (by simp) hne
      (fun a ha => ih a ha (Codd.nodup_argument honce ha) (hargs a ha)) hp
  | or hne _ ih =>
    have hargs := (grounded_boolExpr (by simp)).mp hground
    exact noMark_boolExpr (by simp) hne
      (fun a ha => ih a ha (Codd.nodup_argument honce ha) (hargs a ha)) hp
  | @not os a _ _ ih =>
    have hground' : grounded os (!p) a = true := by
      simpa [grounded, groundedList] using hground
    have hvalue : evalCond I D a ρ = .ofBool (!p) := by
      rw [evalCond_not] at hp
      cases p <;> cases ha : evalCond I D a ρ <;> rw [ha] at hp <;> first | rfl | cases hp
    have hsets : constants p os (.boolExpr .notExpr [a]) = constants (!p) os a := by
      rw [constants, inequalities, inequalitiesList, inequalitiesList, notNull_not, constants]
    rw [hsets]
    exact ih (Codd.nodup_argument honce List.mem_cons_self) hground' hvalue
  | @exist os targetList relids quals _ ih =>
    have hsets : constants p os (existsFrom targetList relids quals) =
        constants p (relids :: os) quals := by
      rw [constants, inequalities_existsFrom, notNull_existsFrom, constants]
    rw [existsFrom, selectFrom, grounded, grounded, map_relidOf_baseTable, Bool.and_eq_true]
      at hground
    rw [hsets]
    cases p with
    | true =>
      obtain ⟨z, _, hz⟩ := evalCond_existsFrom_eq_true.mp hp
      have hin := ih (Codd.nodup_quals honce) hground.2 hz
      exact fun v col hv hcol => hin ⟨v.varno, v.varattno, v.varlevelsup + 1⟩ col hv hcol
    | false =>
      -- an EXISTS can be false without its WHERE being false on any row
      have hnone := hground.1
      rw [Bool.false_or, decide_eq_true_eq, Finset.filter_eq_empty_iff] at hnone
      exact fun v col hv hcol => absurd (mem_flatten_of_columnOf hv) (hnone hcol)

end

/-! ### After the walk -/

theorem forall_mem_andOrsList {p : Scopes × Node Int → Prop} {nodes : List (Node Int)} :
    (∀ n ∈ Codd.andOrsList os nodes, p n) ↔ ∀ a ∈ nodes, ∀ n ∈ Codd.andOrs os a, p n := by
  induction nodes with
  | nil => simp [Codd.andOrsList]
  | cons a nodes ih => rw [Codd.andOrsList, List.forall_mem_append, ih, List.forall_mem_cons]

theorem andOrs_cond {a : Node Int} (h : Cond (Atom cat) True os a)
    (honce : (os.flatten ++ Codd.tables a).Nodup) :
    ∀ n ∈ Codd.andOrs os a,
      Cond (Atom cat) True n.1 n.2 ∧ (n.1.flatten ++ Codd.tables n.2).Nodup := by
  induction h with
  | leaf ha => cases ha <;> exact fun _ hn => absurd hn List.not_mem_nil
  | null => exact fun _ hn => absurd hn List.not_mem_nil
  | and hne hargs ih =>
    exact List.forall_mem_append.mpr ⟨forall_mem_andOrsList.mpr fun a ha =>
      ih a ha (Codd.nodup_argument honce ha), List.forall_mem_singleton.mpr
        ⟨.and hne hargs, honce⟩⟩
  | or hne hargs ih =>
    exact List.forall_mem_append.mpr ⟨forall_mem_andOrsList.mpr fun a ha =>
      ih a ha (Codd.nodup_argument honce ha), List.forall_mem_singleton.mpr
        ⟨.or hne hargs, honce⟩⟩
  | not _ _ ih =>
    exact forall_mem_andOrsList.mpr (List.forall_mem_singleton.mpr
      (ih (Codd.nodup_argument honce List.mem_cons_self)))
  | exist _ ih =>
    simp only [existsFrom, selectFrom, Codd.andOrs, map_relidOf_baseTable]
    exact ih (Codd.nodup_quals honce)

section

variable {targetList : List (Node Int)} {relids : List Oid} {quals : Node Int}

/-- The place of the AND/OR node at a path. -/
theorem andOrs_selectFrom (h : Cond (Atom cat) True [relids] quals) {path : List Nat}
    {target : Node Int} (hpath : nodeAt path (selectFrom targetList relids quals) = some target)
    (hb : target.isAndOr = true) :
    (Codd.andOrs [relids] quals)[before path (selectFrom targetList relids quals) +
        boolCount target - 1]? =
      some (scopesAt path (selectFrom targetList relids quals) [], target) := by
  have hvis : Visited cat [] (selectFrom targetList relids quals) := .query h
  have hat := Codd.andOrs_at hvis hpath hb
  rwa [selectFrom, Codd.andOrs, map_relidOf_baseTable, ← selectFrom] at hat

/-- The entry of the AND/OR node at a path is within the node's set, if all entries are. -/
theorem recordedTrue_within (h : Cond (Atom cat) True [relids] quals)
    (hsettled : settled [relids] none quals = true)
    (hwithin : List.Forall₂ Codd.Within (Codd.entries true [relids] (inequalities quals) ∅ ∅)
      (Codd.andOrs [relids] (inequalities quals))) {path : List Nat} {target : Node Int}
    (hpath : nodeAt path (selectFrom targetList relids quals) = some target)
    (hb : target.isAndOr = true) :
    ∃ K, recordedTrue cat (selectFrom targetList relids quals) path = some K ∧
      ∀ col ∈ K, col.1 ∈ (scopesAt path (selectFrom targetList relids quals) []).flatten →
        col ∈ constants true (scopesAt path (selectFrom targetList relids quals) []) target := by
  have hat := congrArg (Option.map fun n => (n.1, inequalities n.2))
    (andOrs_selectFrom h hpath hb)
  rw [← List.getElem?_map, ← andOrs_inequalities h, Option.map_some] at hat
  obtain ⟨hlt, hget⟩ := List.getElem?_eq_some_iff.mp hat
  have hlt' := hwithin.length_eq ▸ hlt
  refine ⟨_, (recordedTrue_eq targetList h hsettled hpath).trans
    (List.getElem?_eq_getElem hlt'), ?_⟩
  have hK := (List.forall₂_iff_get.mp hwithin).2 _ hlt' hlt
  rw [List.get_eq_getElem, List.get_eq_getElem, hget] at hK
  exact hK

/-- All entries are within the sets of their nodes, if those at each path are. -/
theorem within_of_recordedTrue (h : Cond (Atom cat) True [relids] quals)
    (hsettled : settled [relids] none quals = true)
    (hrec : ∀ path target, nodeAt path (selectFrom targetList relids quals) = some target →
      target.isAndOr = true →
      ∃ K, recordedTrue cat (selectFrom targetList relids quals) path = some K ∧
        ∀ col ∈ K, col.1 ∈ (scopesAt path (selectFrom targetList relids quals) []).flatten →
          col ∈ constants true (scopesAt path (selectFrom targetList relids quals) []) target) :
    List.Forall₂ Codd.Within (Codd.entries true [relids] (inequalities quals) ∅ ∅)
      (Codd.andOrs [relids] (inequalities quals)) := by
  have hlength : (Codd.andOrs [relids] (inequalities quals)).length = boolCount quals := by
    rw [andOrs_inequalities h, List.length_map, Codd.length_andOrs h]
  have hcount : boolCount (inequalities quals) = boolCount quals := by
    rw [← Codd.length_andOrs (cond_inequalities h), hlength]
  refine List.forall₂_iff_get.mpr ⟨?_, fun k hk hk' => ?_⟩
  · rw [Codd.length_entries (cond_inequalities h), hcount, hlength]
  · have hin := (Codd.reaches h (hlength ▸ hk')).parent (selectFrom targetList relids quals)
      (i := 0) rfl
    rw [List.take_zero, boolCountList, Nat.zero_add] at hin
    obtain ⟨path, target, hpath, hb, rfl⟩ := hin
    obtain ⟨K, hK, hwithin⟩ := hrec path target hpath hb
    rw [recordedTrue_eq targetList h hsettled hpath, List.getElem?_eq_getElem hk,
      Option.some.injEq] at hK
    have hat := congrArg (Option.map fun n => (n.1, inequalities n.2))
      (andOrs_selectFrom h hpath hb)
    rw [← List.getElem?_map, ← andOrs_inequalities h, List.getElem?_eq_getElem hk',
      Option.map_some, Option.some.injEq] at hat
    rw [List.get_eq_getElem, List.get_eq_getElem, hK, hat]
    exact hwithin

end

/-- When every comparison after a `<>` that is none itself has columns of the last `<>` only, the
columns in scope recorded for the AND/OR nodes are those of the nodes' true-sets exactly if no node
is an argument of another to whose list later arguments add a column in scope that the node's own
non-empty set does not have; and then, where no sub-select of a node that counts negatively has a
column of an enclosing query in its false-set, the columns recorded for the node are constants on
every row on which it is true. -/
theorem recordedTrue_sound (cat : Catalog) (targetList : List (Node Int)) (relids : List Oid)
    (quals : Node Int) (h : Cond (Atom cat) True [relids] quals)
    (honce : (relids ++ Codd.tables quals).Nodup)
    (hsettled : settled [relids] none quals = true) :
    ((∀ path target, nodeAt path (selectFrom targetList relids quals) = some target →
        target.isAndOr = true →
        ∃ K, recordedTrue cat (selectFrom targetList relids quals) path = some K ∧
          ∀ col ∈ K, col.1 ∈ (scopesAt path (selectFrom targetList relids quals) []).flatten →
            col ∈ constants true (scopesAt path (selectFrom targetList relids quals) [])
              target) ↔
      Codd.contained [relids] (inequalities quals) ∅ ∅ = true) ∧
    (Codd.contained [relids] (inequalities quals) ∅ ∅ = true →
      ∀ path target, nodeAt path (selectFrom targetList relids quals) = some target →
        target.isAndOr = true →
        grounded (scopesAt path (selectFrom targetList relids quals) []) true target = true →
        ∃ K, recordedTrue cat (selectFrom targetList relids quals) path = some K ∧
          ∀ I D ρ, TrueOnConstants I → evalCond I D target ρ = .true →
            NoMark (scopesAt path (selectFrom targetList relids quals) []) ρ K) := by
  rw [← Codd.entries_within_iff (cond_inequalities h)]
  refine ⟨⟨within_of_recordedTrue h hsettled, fun hwithin path target hpath hb =>
    recordedTrue_within h hsettled hwithin hpath hb⟩, ?_⟩
  intro hwithin path target hpath hb hground
  obtain ⟨K, hK, hcols⟩ := recordedTrue_within h hsettled hwithin hpath hb
  refine ⟨K, hK, fun I D ρ hI htrue v col hv hcol => ?_⟩
  have honce' : ([relids].flatten ++ Codd.tables quals).Nodup := by simpa using honce
  obtain ⟨hcond, hnodup⟩ := andOrs_cond h honce' _
    (List.mem_of_getElem? (andOrs_selectFrom h hpath hb))
  exact constants_sound hI hcond hnodup hground htrue v col hv
    (hcols col hcol (mem_flatten_of_columnOf hv))

/-- `r.attno <> x` -/
def differs (attno : Nat) (x : Int) : Node Int := compared 518 ⟨1, attno, 0⟩ x

/-- `SELECT * FROM s WHERE s.a <> r.a`, in an EXISTS inside a query over `r` -/
def differsSomewhere : Node Int :=
  existsFrom [] [2] (.opExpr 518 [.var ⟨1, 1, 0⟩, .var ⟨1, 1, 1⟩])

/-- `r.b = 2 AND (r.a <> 1 OR r.a <> 3) AND EXISTS (SELECT * FROM s WHERE s.a <> r.a)` -/
def equalityFirst : Node Int :=
  .boolExpr .andExpr [compared 96 ⟨1, 2, 0⟩ 2, .boolExpr .orExpr [differs 1 1, differs 1 3],
    differsSomewhere]

theorem differsSomewhere_cond :
    Cond (Atom (Catalog.nullable 2)) True [[1]] differsSomewhere := by
  refine .exist (.leaf (.comparison ?_))
  simp only [List.forall_mem_cons, List.not_mem_nil, false_imp_iff, implies_true, and_true]
  exact ⟨.column (Var.inScope_of_columnOf rfl (by decide) fun _ => (by decide : 1 ≤ 2)),
    .column (Var.inScope_of_columnOf rfl (by decide) fun _ => (by decide : 1 ≤ 2))⟩

theorem equalityFirst_cond : Cond (Atom (Catalog.nullable 2)) True [[1]] equalityFirst := by
  have hor : Cond (Atom (Catalog.nullable 2)) True [[1]]
      (.boolExpr .orExpr [differs 1 1, differs 1 3]) := by
    refine .or (by simp) ?_
    simp only [List.forall_mem_cons, List.not_mem_nil, false_imp_iff, implies_true, and_true]
    exact ⟨.leaf (.compared ⟨1, rfl, by decide, by decide⟩ 518 1),
      .leaf (.compared ⟨1, rfl, by decide, by decide⟩ 518 3)⟩
  refine .and (by simp) ?_
  simp only [List.forall_mem_cons, List.not_mem_nil, false_imp_iff, implies_true, and_true]
  exact ⟨.leaf (.compared ⟨1, rfl, by decide, by decide⟩ 96 2), hor, differsSomewhere_cond⟩

/-- With its equality first, the columns recorded for the AND are constants where it is true. -/
theorem recordedTrue_sound_equalityFirst :
    ∃ K, recordedTrue (Catalog.nullable 2) (selectFrom [] [1] equalityFirst) [0] = some K ∧
      ∀ I D ρ, TrueOnConstants I → evalCond I D equalityFirst ρ = .true → NoMark [[1]] ρ K :=
  (recordedTrue_sound (Catalog.nullable 2) [] [1] equalityFirst equalityFirst_cond (by decide)
    (by decide)).2 (by decide) [0] equalityFirst rfl rfl (by decide)

/-- The comparisons of marked nulls: `<>` is unknown as soon as a null takes part, except that no
null differs from itself; the others compare the codes. -/
def markedInterp : Interp Int where
  test opno args :=
    match args with
    | [some a, some b] =>
      if opno = 518 ∧ (a < 0 ∨ b < 0) then if a = b then .false else .unknown
      else .ofBool (intCompare opno a b)
    | _ => .unknown
  apply _ _ := none

theorem markedInterp_trueOnConstants : TrueOnConstants markedInterp := by
  intro xs h n hn
  match xs, h with
  | [some a, some b], h =>
    by_contra hneg
    have hmark : a < 0 ∨ b < 0 := by
      simp only [List.mem_cons, Option.some.injEq, List.not_mem_nil, or_false] at hn
      omega
    simp only [markedInterp, hmark, and_self, if_true] at h
    split at h <;> cases h

/-- `r.a <> 1 AND r.b = r.c` -/
def equalityLast : Node Int :=
  .boolExpr .andExpr [differs 1 1, .opExpr 96 [.var ⟨1, 2, 0⟩, .var ⟨1, 3, 0⟩]]

/-- `r.b <> 1 AND NOT EXISTS (SELECT * FROM s WHERE NOT r.a <> s.a)` -/
def negatedInside : Node Int :=
  .boolExpr .andExpr [differs 2 1, .boolExpr .notExpr [existsFrom [] [2]
    (.boolExpr .notExpr [.opExpr 518 [.var ⟨1, 1, 1⟩, .var ⟨1, 1, 0⟩]])]]

/-- The columns of `r.b = r.c` join those of the `<>` before it, and the row `(2, -1, -1)` has the
same null in both.  The list of the OR in `(r.a <> 1 OR r.a <> 2) AND r.b <> 3` goes on with `r.b`,
and `(5, -1)` makes the OR true.  A NOT EXISTS without rows is true whatever `r.a` is. -/
theorem recordedTrue_unsound :
    TrueOnConstants markedInterp ∧
    (∃ K ρ, recordedTrue (Catalog.nullable 3) (selectFrom [] [1] equalityLast) [0] = some K ∧
      evalCond markedInterp (fun _ => []) equalityLast ρ = .true ∧ ¬NoMark [[1]] ρ K) ∧
    (∃ K ρ, recordedTrue (Catalog.nullable 2) (selectFrom [] [1] (.boolExpr .andExpr
          [.boolExpr .orExpr [differs 1 1, differs 1 2], differs 2 3])) [0, 0] = some K ∧
      evalCond markedInterp (fun _ => []) (.boolExpr .orExpr [differs 1 1, differs 1 2]) ρ =
        .true ∧ ¬NoMark [[1]] ρ K) ∧
    ∃ K ρ, recordedTrue (Catalog.nullable 2) (selectFrom [] [1] negatedInside) [0] = some K ∧
      evalCond markedInterp (fun _ => []) negatedInside ρ = .true ∧ ¬NoMark [[1]] ρ K := by
  have hmark : ∀ {K : Finset Column} {ρ : Env Int} (attno : Nat), (1, attno) ∈ K →
      ρ.column ⟨1, attno, 0⟩ = some (-1) → ¬NoMark [[1]] ρ K := by
    intro K ρ attno hK hcolumn h
    have hpos := h ⟨1, attno, 0⟩ (1, attno) rfl hK (-1) hcolumn
    omega
  refine ⟨markedInterp_trueOnConstants, ⟨{(1, 1), (1, 2), (1, 3)},
      Env.empty.push [(1, [some 2, some (-1), some (-1)])], ?_, ?_, hmark 2 (by decide) rfl⟩,
    ⟨{(1, 1), (1, 2)}, Env.empty.push [(1, [some 5, some (-1)])], ?_, ?_,
      hmark 2 (by decide) rfl⟩,
    {(1, 2), (1, 1), (2, 1)}, Env.empty.push [(1, [some (-1), some 2])], ?_, ?_,
      hmark 1 (by decide) rfl⟩
  all_goals decide +kernel

end Infed.Marked
