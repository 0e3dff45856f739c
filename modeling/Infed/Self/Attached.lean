import Infed.Self.Boolean
import Infed.Self.Columns
import Mathlib.Data.List.Induction

/-! When `optimize_self_constraint` keeps the rows of a query: what is taken out of the WHERE is
conjoined to it, `add_constrain` conjoins, each constraint has its columns in the FROM entry that it
is attached to, and what is left finds its columns there. -/

namespace Infed.Self

variable {α : Type} {I : Interp α} {D : Database α} {targetList rtable : List (Node α)}
  {quals : Node α}

/-! ### The WHERE -/

/-- A WHERE condition, or none. -/
def IsWhere (quals : Node α) : Prop := quals = .null ∨ Condition quals

theorem IsWhere.modifies {quals : Node α} (h : IsWhere quals) : Modifies none quals := by
  rcases h with rfl | h
  · exact modifies_null
  · exact Self.modifies h none

theorem IsWhere.moved {quals : Node α} (h : IsWhere quals) :
    ∀ t ∈ Self.moved none quals, Condition t := by
  rcases h with rfl | h
  · simp [Self.moved]
  · exact moved_condition h none

theorem IsWhere.isExpression {quals : Node α} (h : IsWhere quals) : quals.isExpression = true := by
  rcases h with rfl | h
  · rfl
  · exact h.isExpression

theorem stripList_of_movedList {args : List (Node α)}
    (h : ∀ a ∈ args, ∀ s, moved s a = [] → strip s a = a) (s : Option Inside)
    (hmoved : movedList s args = []) : stripList s args = args := by
  induction args generalizing s with
  | nil => rfl
  | cons a args ih =>
    rw [List.forall_mem_cons] at h
    rw [movedList, List.append_eq_nil_iff] at hmoved
    rw [stripList, h.1 s hmoved.1, ih h.2 _ hmoved.2]

/-- A condition that nothing is taken out of is left as it is. -/
theorem strip_of_moved {node : Node α} (h : Condition node) (s : Option Inside)
    (hmoved : moved s node = []) : strip s node = node := by
  induction h generalizing s with
  | comparison _ =>
    rw [moved] at hmoved
    split at hmoved
    · cases hmoved
    · next hstays => rw [strip, if_neg hstays]
  | nullTest _ =>
    rw [moved] at hmoved
    split at hmoved
    · cases hmoved
    · next hstays => rw [strip, if_neg hstays]
  | exist => rfl
  | @bool boolop args _ ih =>
    cases boolop with
    | andExpr | notExpr =>
      rw [strip, stripList_of_movedList ih s hmoved]
      simp
    | orExpr =>
      rw [moved, List.append_eq_nil_iff] at hmoved
      obtain ⟨hargs, hnone⟩ := hmoved
      split at hnone
      · cases hnone
      · next hstays => rw [strip, if_neg hstays, stripList_of_movedList ih _ hargs]

/-- The condition is true where what is left of it and what is taken out are. -/
def Divides (I : Interp α) (D : Database α) (ρ : Env α) (node : Node α) : Prop :=
  evalCond I D node ρ = .true ↔ evalCond I D (strip none node) ρ = .true ∧
    ∀ t ∈ moved none node, evalCond I D t ρ = .true

section

variable {I : Interp α} {D : Database α} {ρ : Env α} {node : Node α}

theorem divides_of_stays (h : Condition node) (hmoved : moved none node = []) :
    Divides I D ρ node := by
  rw [Divides, strip_of_moved h none hmoved, hmoved]
  simp

theorem divides_of_taken (hstrip : strip none node = .null) (hmoved : moved none node = [node]) :
    Divides I D ρ node := by
  rw [Divides, hstrip, hmoved]
  simp [evalCond]

theorem divides_and {args : List (Node α)} (h : ∀ a ∈ args, Divides I D ρ a) :
    Divides I D ρ (.boolExpr .andExpr args) := by
  rw [Divides, strip_and, moved_and, evalCond_and_eq_true, evalCond_and_eq_true,
    List.forall_mem_map]
  simp only [List.mem_flatMap]
  constructor
  · refine fun htrue => ⟨fun a ha => ((h a ha).mp (htrue a ha)).1, ?_⟩
    rintro t ⟨a, ha, ht⟩
    exact ((h a ha).mp (htrue a ha)).2 t ht
  · rintro ⟨hleft, htaken⟩ a ha
    exact (h a ha).mpr ⟨hleft a ha, fun t ht => htaken t ⟨a, ha, ht⟩⟩

theorem divides_of_onlyConjuncts (h : Condition node) (honly : onlyConjuncts node = true) :
    Divides I D ρ node := by
  induction h with
  | @comparison opno args hargs =>
    cases htakes : takes (.opExpr opno args) with
    | true => exact divides_of_taken (by simp [strip, htakes]) (by simp [moved, htakes])
    | false => exact divides_of_stays (.comparison hargs) (by simp [moved, htakes])
  | @nullTest test arg harg =>
    cases htakes : takes (.nullTest test arg) with
    | true => exact divides_of_taken (by simp [strip, htakes]) (by simp [moved, htakes])
    | false => exact divides_of_stays (.nullTest harg) (by simp [moved, htakes])
  | exist => exact divides_of_stays .exist rfl
  | @bool boolop args hargs ih =>
    cases boolop with
    | notExpr =>
      refine divides_of_stays (.bool hargs) ?_
      rw [moved] <;> try simp
      exact List.isEmpty_iff.mp honly
    | orExpr =>
      have hnone := List.isEmpty_iff.mp honly
      cases htakes : takesOr none args with
      | true =>
        exact divides_of_taken (by simp [strip, htakes]) (by simp [moved, htakes, flag, hnone])
      | false => exact divides_of_stays (.bool hargs) (by simp [moved, htakes, flag, hnone])
    | andExpr =>
      rw [onlyConjuncts, onlyConjunctsList_iff] at honly
      refine divides_and fun a ha => ih a ha ?_
      obtain ⟨i, hi⟩ := List.mem_iff_getElem?.mp ha
      exact honly i a hi

end

/-! ### The constraints -/

/-- Each call of `add_constrain` of a run finds entries to which it conjoins its constraint. -/
def Conjoined (nodes : List (Node α)) : Prop :=
  ∀ pre c post, nodes = pre ++ c :: post → ∀ rel, addConstraints [] pre = some rel →
    conjoins (key c) rel = true

/-- What the entries of a run hold. -/
structure Holds (nodes rel : List (Node α)) : Prop where
  entry : ∀ t ∈ rel, Entry t
  columns : ∀ v ∈ columnsOfList nodes, v ∈ columnsOfList rel
  conjoined : Conjoined nodes → ∀ (I : Interp α) D ρ,
    (∀ t ∈ rel, evalCond I D t ρ = .true) ↔ ∀ c ∈ nodes, evalCond I D c ρ = .true

theorem addConstraints_holds {nodes : List (Node α)} (hnodes : ∀ c ∈ nodes, Condition c) :
    ∃ rel, addConstraints [] nodes = some rel ∧ Holds nodes rel := by
  induction nodes using List.reverseRecOn with
  | nil => exact ⟨[], rfl, by simp, by simp, by simp⟩
  | append_singleton nodes c ih =>
    rw [List.forall_mem_append] at hnodes
    obtain ⟨rel, hrun, hholds⟩ := ih hnodes.1
    obtain ⟨rel', hadd, hconstrained⟩ :=
      addConstrain_entries (key c) hholds.entry (hnodes.2 c List.mem_cons_self)
    refine ⟨rel', ?_, hconstrained.entry, fun v hv => ?_, fun h I D ρ => ?_⟩
    · rw [addConstraints_append, hrun]
      simp [addConstraints, hadd]
    · obtain ⟨d, hd, hvd⟩ := mem_columnsOfList.mp hv
      refine hconstrained.columns v ?_
      rcases List.mem_append.mp hd with hd | hd
      · exact .inl (hholds.columns v (mem_columnsOfList.mpr ⟨d, hd, hvd⟩))
      · rw [List.mem_singleton.mp hd] at hvd
        exact .inr hvd
    · have hbefore : Conjoined nodes := fun pre d post hpre =>
        h pre d (post ++ [c]) (by rw [hpre, List.append_assoc, List.cons_append])
      rw [hconstrained.conjoined (h nodes c [] rfl rel hrun), hholds.conjoined hbefore,
        List.forall_mem_append, List.forall_mem_singleton]

theorem Entry.isExpression {t : Node α} (h : Entry t) : t.isExpression = true := by
  induction h with
  | comparison hargs => exact Node.areExpressions_iff.mpr fun a ha => (hargs a ha).isExpression
  | nullTest harg => exact harg.isExpression
  | exist => rfl
  | bool _ ih => exact Node.areExpressions_iff.mpr ih
  | list _ ih => exact Node.areExpressions_iff.mpr ih

/-! ### The FROM entries -/

/-- The constraint has all its columns in the FROM entry that it is attached to, where the ones
before have left them; in a sub-select of the constraint, `modif_rel` does not renumber them; and
the entry, one query deeper than before, is the same there. -/
structure Attached (targetList rtable before : List (Node α)) (t : Node α) : Prop where
  place : placeOf t < rtable.length
  columns : ∀ v ∈ references t, v.varlevelsup = 0 ∧ v.varno = placeOf t + 1 ∧
    followed targetList (placeOf t) before v.varattno = some v.varattno
  inner : innerColumns t = [] ∨ placeOf t = 0
  closed : ∀ rte, rtable[placeOf t]? = some rte → Closed rte

theorem followed_snoc (place : Nat) (ts : List (Node α)) (t : Node α) (k : Nat) :
    followed targetList place (ts ++ [t]) k =
      (if placeOf t = place then follow targetList (varnoOf t) k else some k).bind
        (followed targetList place ts) := by
  induction ts with
  | nil =>
    rw [List.nil_append, followed, followed, Option.bind_some]
    exact (Option.bind_fun_some _).symm
  | cons u ts ih =>
    rw [List.cons_append, followed, ih, Option.bind_assoc]
    rfl

theorem wraps_snoc (place : Nat) (ts : List (Node α)) (t rte : Node α) :
    wraps targetList place (ts ++ [t]) rte =
      if placeOf t = place then wrap targetList t (wraps targetList place ts rte)
      else wraps targetList place ts rte := by
  rw [wraps, List.foldl_append]
  rfl

/-- The value of a column of the sub-select in the place of an entry. -/
theorem getD_outputs {varno : Int} {k a : Nat} (h : follow targetList varno k = some a) (r : Row α)
    (ρ : Env α) :
    (evalScalars I D (outputs targetList varno) (ρ.push [(1, r)])).getD (k - 1) none =
      r.getD (a - 1) none := by
  rw [follow, Option.bind_eq_some_iff] at h
  obtain ⟨v, hv, hown⟩ := h
  split at hown
  · next hv1 =>
    cases hown
    rw [evalScalars_getD hv]
    simp [Env.column, Env.row, hv1]
  · cases hown

/-- The constraint on a row of the entry, with its columns where they were. -/
theorem evalCond_toFirst {before : List (Node α)} {t : Node α} (ht : t.isExpression = true)
    (h : Attached targetList rtable before t) {ρ σ : Env α} (hparam : ρ.param = σ.param)
    {r r' : Row α} (hcolumns : ∀ k a, followed targetList (placeOf t) before k = some a →
      r'.getD (k - 1) none = r.getD (a - 1) none) :
    evalCond I D (mapColumns toFirst t) (ρ.push [(1, r')]) =
      evalCond I D t (σ.push [(placeOf t + 1, r)]) := by
  have hvalue : ∀ v ∈ references t,
      r'.getD (v.varattno - 1) none = (σ.push [(placeOf t + 1, r)]).column v := by
    intro v hv
    obtain ⟨hlevel, hvarno, hfollowed⟩ := h.columns v hv
    rw [hcolumns _ _ hfollowed]
    simp [Env.column, Env.row, hlevel, hvarno]
  refine evalCond_mapColumns toFirst t ⟨fun v hv => ?_, fun v hv => ?_, hparam⟩
  · have hmem := (mem_references ht).mpr (.inl hv)
    rw [← hvalue v hmem]
    simp [Env.column, Env.row, toFirst, (h.columns v hmem).1]
  · have hmem := (mem_references ht).mpr (.inr hv)
    have hplace := h.inner.resolve_left (List.ne_nil_of_mem hv)
    obtain ⟨hlevel, hvarno, _⟩ := h.columns v hmem
    rw [← hvalue v hmem]
    simp [Env.column, Env.row, hlevel, hvarno, hplace]

/-- The row of a FROM entry meets the constraints that are attached to it. -/
def meetsAll (I : Interp α) (D : Database α) (σ : Env α) (ts : List (Node α)) (place : Nat)
    (r : Row α) : Bool :=
  ts.all fun t => !decide (placeOf t = place) || evalCond I D t (σ.push [(place + 1, r)]) == .true

theorem meetsAll_snoc (σ : Env α) (ts : List (Node α)) (t : Node α) (place : Nat) (r : Row α) :
    meetsAll I D σ (ts ++ [t]) place r = (meetsAll I D σ ts place r &&
      if placeOf t = place then evalCond I D t (σ.push [(place + 1, r)]) == .true else true) := by
  rw [meetsAll, List.all_append, meetsAll]
  split <;> rename_i h <;> simp [h]

theorem meetsAll_iff {σ : Env α} {ts : List (Node α)} {place : Nat} {r : Row α} :
    meetsAll I D σ ts place r = true ↔
      ∀ t ∈ ts, placeOf t = place → evalCond I D t (σ.push [(place + 1, r)]) = .true := by
  simp [meetsAll, imp_iff_not_or]

/-- The rows of an entry with its constraints: those that meet them, with their columns where
`followed` says. -/
theorem evalRte_wraps {place : Nat} {rte : Node α} (hrte : rtable[place]? = some rte)
    {ts : List (Node α)} (hts : ∀ t ∈ ts, t.isExpression = true)
    (h : ∀ before t after, ts = before ++ t :: after → Attached targetList rtable before t)
    {ρ σ : Env α} (hparam : ρ.param = σ.param) :
    ∃ f : Row α → Row α,
      evalRte I D (wraps targetList place ts rte) ρ =
        ((evalRte I D rte ρ).filter (meetsAll I D σ ts place)).map f ∧
      ∀ r k a, followed targetList place ts k = some a →
        (f r).getD (k - 1) none = r.getD (a - 1) none := by
  induction ts using List.reverseRecOn generalizing ρ with
  | nil =>
    refine ⟨id, by simp [show meetsAll I D σ [] place = fun _ => true from rfl], fun r k a hk => ?_⟩
    cases hk
    rfl
  | append_singleton ts t ih =>
    rw [List.forall_mem_append] at hts
    have ih := fun {ρ : Env α} (hparam : ρ.param = σ.param) =>
      ih hts.1 (fun before u after hu => h before u (after ++ [t]) (by
        rw [hu, List.append_assoc, List.cons_append])) (ρ := ρ) hparam
    have hattached := h ts t [] rfl
    by_cases hplace : placeOf t = place
    · obtain ⟨f, hrows, hcolumns⟩ := ih (ρ := ρ.push []) hparam
      have hclosed := hattached.closed rte (hplace ▸ hrte)
      rw [hclosed I D (show (ρ.push []).param = ρ.param from rfl)] at hrows
      refine ⟨fun r => evalScalars I D (outputs targetList (varnoOf t)) (ρ.push [(1, f r)]), ?_,
        fun r k a hk => ?_⟩
      · rw [wraps_snoc, if_pos hplace, evalRte_wrap, hrows, List.filter_map, List.filter_filter,
          List.map_map]
        congr 1
        refine List.filter_congr fun r _ => ?_
        have hcond := evalCond_toFirst (I := I) (D := D) (hts.2 t List.mem_cons_self) hattached
          hparam fun k a hk => hcolumns r k a (hplace ▸ hk)
        rw [hplace] at hcond
        rw [Function.comp_apply, hcond, meetsAll_snoc, if_pos hplace, Bool.and_comm]
        congr 1
      · rw [followed_snoc, if_pos hplace, Option.bind_eq_some_iff] at hk
        obtain ⟨b, hb, hk⟩ := hk
        rw [getD_outputs hb, hcolumns r b a hk]
    · obtain ⟨f, hrows, hcolumns⟩ := ih hparam
      refine ⟨f, ?_, fun r k a hk => ?_⟩
      · rw [wraps_snoc, if_neg hplace, hrows]
        congr 1
        refine List.filter_congr fun r _ => ?_
        rw [meetsAll_snoc, if_neg hplace, Bool.and_true]
      · rw [followed_snoc, if_neg hplace, Option.bind_some] at hk
        exact hcolumns r k a hk

/-! ### The query -/

/-- What is taken out of the WHERE and what is left of it mean together what the WHERE meant. -/
structure Transfers (targetList rtable : List (Node α)) (quals : Node α) : Prop where
  conjuncts : onlyConjuncts quals = true
  conjoined : Conjoined (moved none quals)
  attached : ∀ before t after, addConstraints [] (moved none quals) = some (before ++ t :: after) →
    Attached targetList rtable before t
  finds : ∀ rel, addConstraints [] (moved none quals) = some rel →
    ∀ v ∈ ownReferences targetList (strip none quals), 1 ≤ v.varno → v.varno ≤ rtable.length →
      followed targetList (v.varno - 1) rel v.varattno = some v.varattno

theorem IsWhere.true_iff {quals : Node α} (h : IsWhere quals)
    (honly : onlyConjuncts quals = true) (I : Interp α) (D : Database α) (ρ : Env α) :
    evalCond I D quals ρ = .true ↔ evalCond I D (strip none quals) ρ = .true ∧
      ∀ t ∈ Self.moved none quals, evalCond I D t ρ = .true := by
  rcases h with rfl | h
  · simp [strip, Self.moved]
  · exact divides_of_onlyConjuncts h honly

/-- A constraint sees one row of a combination. -/
theorem Attached.evalCond_combination {before : List (Node α)} {t : Node α}
    (h : Attached targetList rtable before t) {z : List (Nat × Row α)} (ρ : Env α) {r : Row α}
    (hr : z.lookup (placeOf t + 1) = some r) :
    evalCond I D t (ρ.push z) = evalCond I D t (ρ.push [(placeOf t + 1, r)]) := by
  refine evalCond_agree t ⟨fun v hv => ?_, rfl⟩
  obtain ⟨hlevel, hvarno, _⟩ := h.columns v hv
  simp [Env.column, Env.row, hlevel, hvarno, hr]

/-- The rows of each FROM entry meet its constraints exactly if all constraints are true. -/
theorem all_meetsAll {rel : List (Node α)} (h : ∀ t ∈ rel, ∃ before,
      Attached targetList rtable before t) {tables : List (List (Row α))}
    {z : List (Nat × Row α)} (hz : z ∈ combinations tables (List.range' 1 rtable.length))
    (ρ : Env α) :
    (z.all fun x => meetsAll I D ρ rel (x.1 - 1) x.2) = true ↔
      ∀ t ∈ rel, evalCond I D t (ρ.push z) = .true := by
  have hfst := map_fst_combination hz
  have hnodup : (z.map Prod.fst).Nodup := hfst ▸ List.nodup_range'
  rw [List.all_eq_true]
  simp only [meetsAll_iff]
  constructor
  · intro hall t ht
    obtain ⟨before, hattached⟩ := h t ht
    have hmem : placeOf t + 1 ∈ z.map Prod.fst := by
      rw [hfst, List.mem_range'_1]
      have := hattached.place
      omega
    obtain ⟨⟨i, r⟩, hx, hi⟩ := List.mem_map.mp hmem
    obtain rfl : i = placeOf t + 1 := hi
    rw [hattached.evalCond_combination ρ (lookup_of_mem hnodup hx)]
    exact hall _ hx t ht rfl
  · rintro hall ⟨i, r⟩ hx t ht hplace
    obtain ⟨before, hattached⟩ := h t ht
    have hi : i ∈ List.range' 1 rtable.length := hfst ▸ List.mem_map_of_mem hx
    have hi1 : placeOf t + 1 = i := by
      have := List.mem_range'_1.mp hi
      simp only at hplace
      omega
    have hlookup := lookup_of_mem hnodup hx
    rw [← hi1] at hlookup
    rw [← hplace, ← hattached.evalCond_combination ρ hlookup]
    exact hall t ht

/-- The columns whose values stay in their places in the projected rows. -/
theorem agreeOn_project {tables : List (List (Row α))} {fromlist : List Nat}
    {z : List (Nat × Row α)} (hz : z ∈ combinations tables fromlist) {f : Nat → Row α → Row α}
    {vs : List Var} (h : ∀ v ∈ vs, v.varlevelsup = 0 → v.varno ∈ fromlist → ∀ r,
      (f v.varno r).getD (v.varattno - 1) none = r.getD (v.varattno - 1) none) (ρ : Env α) :
    Env.AgreeOn vs (ρ.push (z.map fun x => (x.1, f x.1 x.2))) (ρ.push z) := by
  refine ⟨fun v hv => ?_, rfl⟩
  obtain ⟨varno, varattno, varlevelsup⟩ := v
  cases varlevelsup with
  | succ n => rfl
  | zero =>
    simp only [Env.column, Env.row, Env.push_levels, List.getD_cons_zero, lookup_map_snd f z varno]
    cases hr : z.lookup varno with
    | none => rfl
    | some r =>
      refine h _ hv rfl ?_ r
      obtain ⟨pre, post, rfl, _⟩ := List.lookup_eq_some_iff.mp hr
      simp [← map_fst_combination hz]

/-- The rows of the FROM entries with their constraints. -/
theorem evalRtable_wraps {rel : List (Node α)} (hexpr : ∀ t ∈ rel, t.isExpression = true)
    (h : ∀ before t after, rel = before ++ t :: after → Attached targetList rtable before t)
    (I : Interp α) (D : Database α) (ρ : Env α) :
    ∃ f : Nat → Row α → Row α,
      (∀ i ∈ List.range' 1 rtable.length,
        (evalRtable I D (rtable.mapIdx fun place => wraps targetList place rel)
          (ρ.push [])).getD (i - 1) [] =
        (((evalRtable I D rtable (ρ.push [])).getD (i - 1) []).filter
          (meetsAll I D ρ rel (i - 1))).map (f i)) ∧
      ∀ i ∈ List.range' 1 rtable.length, ∀ r k a,
        followed targetList (i - 1) rel k = some a →
          (f i r).getD (k - 1) none = r.getD (a - 1) none := by
  have hrows : ∀ i, ∃ f : Row α → Row α, i ∈ List.range' 1 rtable.length →
      (evalRtable I D (rtable.mapIdx fun place => wraps targetList place rel)
        (ρ.push [])).getD (i - 1) [] =
      (((evalRtable I D rtable (ρ.push [])).getD (i - 1) []).filter
        (meetsAll I D ρ rel (i - 1))).map f ∧
      ∀ r k a, followed targetList (i - 1) rel k = some a →
        (f r).getD (k - 1) none = r.getD (a - 1) none := by
    intro i
    by_cases hlt : i - 1 < rtable.length
    · have hrte := List.getElem?_eq_getElem hlt
      obtain ⟨f, hf, hcolumns⟩ := evalRte_wraps (I := I) (D := D) (σ := ρ) (ρ := ρ.push []) hrte
        hexpr h rfl
      refine ⟨f, fun _ => ⟨?_, hcolumns⟩⟩
      simpa only [evalRtable_eq_map, List.getD_eq_getElem?_getD, List.getElem?_map,
        List.getElem?_mapIdx, hrte, Option.map_some, Option.getD_some] using hf
    · refine ⟨id, fun hi => absurd ?_ hlt⟩
      have := List.mem_range'_1.mp hi
      omega
  choose f hf using hrows
  exact ⟨f, fun i hi => (hf i hi).1, fun i hi => (hf i hi).2⟩

/-- Under these conditions `optimize_self_constraint` returns, and keeps the rows of the query. -/
theorem optimizeSelfConstraint_transfers (htarget : Node.areExpressions targetList = true)
    (hquals : IsWhere quals) (h : Transfers targetList rtable quals) :
    ∃ rel, addConstraints [] (moved none quals) = some rel ∧
      (∀ t ∈ rel, t.isExpression = true) ∧
      optimizeSelfConstraint (.query targetList rtable (List.range' 1 rtable.length) quals) =
        some (.query targetList (rtable.mapIdx fun place => wraps targetList place rel)
          (List.range' 1 rtable.length) (strip none quals)) ∧
      ∀ (I : Interp α) (D : Database α) (ρ : Env α),
        evalQuery I D (.query targetList (rtable.mapIdx fun place => wraps targetList place rel)
          (List.range' 1 rtable.length) (strip none quals)) ρ =
        evalQuery I D (.query targetList rtable (List.range' 1 rtable.length) quals) ρ := by
  obtain ⟨rel, hrel, hholds⟩ := addConstraints_holds hquals.moved
  have hexpr : ∀ t ∈ rel, t.isExpression = true := fun t ht => (hholds.entry t ht).isExpression
  obtain ⟨context, hrun, hcontext, _⟩ :=
    hquals.modifies.run fun t ht => (hquals.moved t ht).isExpression
  obtain rfl : context.alreadyConstrainRel = rel := Option.some.inj (hcontext.symm.trans hrel)
  have hattached : ∀ before t after, context.alreadyConstrainRel = before ++ t :: after →
      Attached targetList rtable before t := fun before t after he =>
    h.attached before t after (hrel.trans (congrArg some he))
  have hany : ∀ t ∈ context.alreadyConstrainRel, ∃ before,
      Attached targetList rtable before t := by
    intro t ht
    obtain ⟨before, after, he⟩ := List.append_of_mem ht
    exact ⟨before, hattached before t after he⟩
  refine ⟨context.alreadyConstrainRel, hrel, hexpr, ?_, fun I D ρ => ?_⟩
  · rw [optimizeSelfConstraint_eq htarget hrun hexpr, if_pos]
    exact fun t ht => (hany t ht).elim fun _ ha => ha.place
  obtain ⟨f, hrows, hcolumns⟩ := evalRtable_wraps hexpr hattached I D ρ
  have hagree : ∀ z ∈ combinations (evalRtable I D rtable (ρ.push []))
      (List.range' 1 rtable.length), Env.AgreeOn
        (referencesList targetList ++ references (strip none quals))
        (ρ.push (z.map fun x => (x.1, f x.1 x.2))) (ρ.push z) := by
    refine fun z hz => agreeOn_project hz (fun v hv hlevel hvarno r => ?_) ρ
    have hmem : v ∈ ownReferences targetList (strip none quals) :=
      List.mem_filter.mpr ⟨hv, decide_eq_true hlevel⟩
    obtain ⟨h1, hn⟩ := List.mem_range'_1.mp hvarno
    exact hcolumns _ hvarno r _ _ (h.finds _ hrel v hmem h1 (by omega))
  have hfilter : ∀ z ∈ combinations (evalRtable I D rtable (ρ.push []))
      (List.range' 1 rtable.length),
      (((fun z => decide (evalCond I D (strip none quals) (ρ.push z) = .true)) ∘
        fun z => z.map fun x => (x.1, f x.1 x.2)) z &&
        z.all fun x => meetsAll I D ρ context.alreadyConstrainRel (x.1 - 1) x.2) =
      decide (evalCond I D quals (ρ.push z) = .true) := by
    intro z hz
    rw [Bool.eq_iff_iff, Bool.and_eq_true, all_meetsAll hany hz, hholds.conjoined h.conjoined,
      decide_eq_true_iff, hquals.true_iff h.conjuncts, Function.comp_apply, decide_eq_true_iff,
      evalCond_agree _ (hagree z hz).right]
  rw [evalQuery, evalQuery, combinations_filter_map hrows, List.filter_map, List.filter_filter,
    List.map_map, List.filter_congr hfilter]
  refine List.map_congr_left fun z hz => ?_
  exact evalScalars_agree targetList (hagree z (List.mem_of_mem_filter hz)).left

/-- `optimize_self_constraint` moves nothing, or what it moves means the same afterwards. -/
inductive KeepsRows (targetList rtable : List (Node α)) (quals : Node α) : Prop where
  | idle {context} :
    mutate myModifierSelf quals makeContextOptimizerSelf = some (quals, context) →
    context.alreadyConstrainRel = [] → KeepsRows targetList rtable quals
  | transfers : Node.areExpressions targetList = true → IsWhere quals →
    Transfers targetList rtable quals → KeepsRows targetList rtable quals

theorem KeepsRows.run (h : KeepsRows targetList rtable quals) :
    ∃ rtable' quals', rtable'.length = rtable.length ∧
      optimizeSelfConstraint (.query targetList rtable (List.range' 1 rtable.length) quals) =
        some (.query targetList rtable' (List.range' 1 rtable.length) quals') ∧
      ∀ (I : Interp α) D ρ,
        evalQuery I D (.query targetList rtable' (List.range' 1 rtable.length) quals') ρ =
          evalQuery I D (.query targetList rtable (List.range' 1 rtable.length) quals) ρ := by
  cases h with
  | idle hrun hnone =>
    refine ⟨rtable, quals, rfl, ?_, fun _ _ _ => rfl⟩
    simp [optimizeSelfConstraint, hrun, hnone, rewriteSelf]
  | transfers htarget hquals htransfers =>
    obtain ⟨rel, _, _, hrun, hrows⟩ := optimizeSelfConstraint_transfers htarget hquals htransfers
    exact ⟨_, _, List.length_mapIdx, hrun, hrows⟩

end Infed.Self
