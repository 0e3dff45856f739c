import Infed.Exist.Deletions
import Infed.Exist.Extract
import Infed.Self.Clauses

/-! Whether the query stays well scoped while components are taken out of it.  The number of a FROM
entry is its position among the entries that are left, and `deacrease` keeps it so; the deletions
from the range table hit these positions only in a component that clears the tables which are to
stay, and `substract` keeps one FROM reference even if no table is left. -/

namespace Infed.Exist

open Self (Leaf)

variable {α : Type} {n : Nat} {K c : List Nat}

/-! ### Columns -/

/-- The column `v'` of the query with the FROM entries `K` is the column `v` of the query with all
of them. -/
structure Denotes (K : List Nat) (v v' : Var) : Prop where
  varattno : v'.varattno = v.varattno
  varlevelsup : v'.varlevelsup = v.varlevelsup
  own : v.varlevelsup = 0 → 1 ≤ v'.varno ∧ K[v'.varno - 1]? = some v.varno
  outer : v.varlevelsup ≠ 0 → v'.varno = v.varno

inductive SameOperand (K : List Nat) : Node α → Node α → Prop where
  | column {v v'} : Denotes K v v' → SameOperand K (.var v) (.var v')
  | constant {value} : SameOperand K (.const value) (.const value)

/-- The same comparison of the same columns. -/
inductive Renames (K : List Nat) : Node α → Node α → Prop where
  | mk {opno args args'} : List.Forall₂ (SameOperand K) args args' →
    Renames K (.opExpr opno args) (.opExpr opno args')

theorem denotes_range {v : Var} (h : InFrom n v) : Denotes (List.range' 1 n) v v := by
  refine ⟨rfl, rfl, fun hv => ⟨(h hv).1, ?_⟩, fun _ => rfl⟩
  have := h hv
  rw [List.getElem?_range' (by omega)]
  exact congrArg some (by omega)

theorem Denotes.number (hK : K.Pairwise (· < ·)) {v v' : Var} (h : Denotes K v v')
    (hv : v.varlevelsup = 0) : v.varno ∈ K ∧ v'.varno = number K v.varno := by
  obtain ⟨h1, hget⟩ := h.own hv
  have hmem := List.mem_of_getElem? hget
  have hget' := getElem?_number hK hmem
  obtain ⟨hlt, heq⟩ := List.getElem?_eq_some_iff.mp hget
  obtain ⟨hlt', heq'⟩ := List.getElem?_eq_some_iff.mp hget'
  have hpos : 1 ≤ Exist.number K v.varno := Nat.le_add_left _ _
  have hindex := (nodup_of_ascending hK).getElem_inj_iff.mp (heq.trans heq'.symm)
  exact ⟨hmem, by omega⟩

section Round

variable (hK : K.Pairwise (· < ·)) (hsub : ∀ v ∈ c, v ∈ K)
include hK hsub

theorem Denotes.isColumnOf {v v' : Var} (h : Denotes K v v') :
    isColumnOf (c.map (Exist.number K)) (.var v' : Node α) = isColumnOf c (.var v : Node α) := by
  simp only [Exist.isColumnOf, h.varlevelsup]
  by_cases hv : v.varlevelsup = 0
  · obtain ⟨hmem, hno⟩ := h.number hK hv
    have hiff : v'.varno ∈ c.map (Exist.number K) ↔ v.varno ∈ c := by
      rw [hno]
      refine ⟨fun hm => ?_, List.mem_map_of_mem⟩
      obtain ⟨u, hu, heq⟩ := List.mem_map.mp hm
      exact number_inj hK (hsub u hu) hmem heq ▸ hu
    rw [Bool.eq_iff_iff]
    simp [hv, hiff]
  · have hlevel : (v.varlevelsup == 0) = false := by simpa using hv
    rw [hlevel, Bool.false_and, Bool.false_and]

theorem Renames.mentions {a a' : Node α} (h : Renames K a a') :
    mentions (c.map (number K)) a' = mentions c a := by
  obtain ⟨hargs⟩ := h
  simp only [Exist.mentions]
  induction hargs with
  | nil => rfl
  | cons ha _ ih =>
    rw [List.any_cons, List.any_cons, ih]
    cases ha with
    | column hv => rw [hv.isColumnOf hK hsub]
    | constant => rfl

variable (hc : c.Nodup)
include hc

theorem Denotes.renumber {v v' : Var} (h : Denotes K v v')
    (hv : Exist.isColumnOf c (.var v : Node α) = false) :
    Denotes (rest K c) v (renumberVar (c.map (Exist.number K)) v') := by
  unfold renumberVar
  split
  · next hlevel =>
    have hlevel' := h.varlevelsup ▸ hlevel
    obtain ⟨hmem, hno⟩ := h.number hK hlevel'
    have hnot : v.varno ∉ c := by simpa [Exist.isColumnOf, hlevel'] using hv
    refine ⟨h.varattno, h.varlevelsup, fun _ => ?_, fun h0 => absurd hlevel' h0⟩
    rw [hno, deacrease_number hK hc hsub hmem]
    exact ⟨Nat.le_add_left _ _,
      getElem?_number (rest_ascending hK) (mem_rest.mpr ⟨hmem, hnot⟩)⟩
  · next hlevel =>
    refine ⟨h.varattno, h.varlevelsup, fun h0 => absurd (h.varlevelsup.trans h0) hlevel, h.outer⟩

theorem Renames.renumber {a a' : Node α} (h : Renames K a a')
    (hnot : Exist.mentions c a = false) :
    Renames (rest K c) a (mapColumns (renumberVar (c.map (number K))) a') := by
  obtain ⟨hargs⟩ := h
  rw [mapColumns, mapColumnsList_eq_map]
  refine .mk ?_
  simp only [Exist.mentions] at hnot
  induction hargs with
  | nil => exact .nil
  | cons ha _ ih =>
    rw [List.any_cons, Bool.or_eq_false_iff] at hnot
    refine .cons ?_ (ih hnot.2)
    cases ha with
    | column hv => exact .column (hv.renumber hK hsub hc hnot.1)
    | constant => exact .constant

/-- The comparisons that do not mention the component stay the same. -/
theorem forall₂_renames {cs cs' : List (Node α)} (h : List.Forall₂ (Renames K) cs cs') :
    List.Forall₂ (Renames (rest K c)) (cs.filter (!mentions c ·))
      ((cs'.filter (!mentions (c.map (number K)) ·)).map
        (mapColumns (renumberVar (c.map (number K))))) := by
  induction h with
  | nil => exact .nil
  | @cons a a' cs cs' ha _ ih =>
    have hmentions := ha.mentions hK hsub
    cases hm : mentions c a with
    | true =>
      rw [List.filter_cons_of_neg (by simp [hm]), List.filter_cons_of_neg (by simp [hmentions, hm])]
      exact ih
    | false =>
      rw [List.filter_cons_of_pos (by simp [hm]), List.filter_cons_of_pos (by simp [hmentions, hm]),
        List.map_cons]
      exact .cons (ha.renumber hK hsub hc hm) ih

end Round

/-! ### The rounds -/

/-- The query is well scoped with the FROM entries `K` of the given ones, and has the comparisons
`cs` of the given query. -/
structure Scoped (K : List Nat) (cs : List (Node α)) (entry : Nat → Node α) (q : Node α) :
    Prop where
  rtable : q.rtable = K.map entry
  fromlist : q.fromlist = List.range' 1 q.rtable.length
  columns : List.Forall₂ (Renames K) cs (comparisons q.quals)

/-- The query over the FROM entries `K`. -/
def fromEntries (K : List Nat) (entry : Nat → Node α) (targetList args : List (Node α)) : Node α :=
  .query targetList (K.map entry) (List.range' 1 K.length) (.boolExpr .andExpr args)

/-- What the loop keeps of the query: `cs` are the comparisons of the given query that are left and
`P` the components that are still to be taken out, in the numbers of the given query. -/
structure Pending (K : List Nat) (targetList args cs : List (Node α)) (P : List (List Nat)) :
    Prop where
  ascending : K.Pairwise (· < ·)
  entries : Node.areExpressions targetList = true
  plain : ∀ a ∈ args, Plain a
  columns : List.Forall₂ (Renames K) cs (comparisonsList args)
  nodup : P.flatten.Nodup
  subset : ∀ v ∈ P.flatten, v ∈ K

/-- The arguments of the AND of the next round. -/
def nextArgs (K c : List Nat) (entry : Nat → Node α) (targetList args : List (Node α)) :
    List (Node α) :=
  [mapColumns (renumberVar (c.map (number K)))
      (strip (c.map (number K)) false (.boolExpr .andExpr args)),
    addedExists (c.map (number K)) targetList (c.map entry)
      ((comparisonsList args).filter (mentions (c.map (number K))))]

/-- The FROM entry `v`, in the range table of a query over `K`. -/
def entryOf (K : List Nat) (rtable : List (Node α)) (v : Nat) : Node α :=
  (rtable[number K v - 1]?).getD .null

/-- The target list of the next round. -/
def nextTargets (K c : List Nat) (targetList : List (Node α)) : List (Node α) :=
  keptTargets (columnOutside (c.map (number K))) targetList

/-- Each component, with the numbers of its round, clears the tables that are to stay. -/
def Cleared (K : List Nat) : List (List Nat) → Prop
  | [] => True
  | c :: P => (∀ u ∈ rest K c, Clears (number K u) 0 (c.map (number K))) ∧ Cleared (rest K c) P

instance Cleared.decidable : ∀ K P, Decidable (Cleared K P)
  | _, [] => .isTrue trivial
  | K, c :: P =>
    have := Cleared.decidable (rest K c) P
    inferInstanceAs (Decidable
      ((∀ u ∈ rest K c, Clears (number K u) 0 (c.map (number K))) ∧ Cleared (rest K c) P))

/-- Components in ascending order clear the tables that are to stay. -/
theorem cleared_of_ascending {P : List (List Nat)} (hK : K.Pairwise (· < ·))
    (hnodup : P.flatten.Nodup) (hsub : ∀ v ∈ P.flatten, v ∈ K)
    (h : ∀ c ∈ P, c.Pairwise (· < ·)) : Cleared K P := by
  induction P generalizing K with
  | nil => trivial
  | cons c P ih =>
    rw [List.forall_mem_cons] at h
    rw [List.flatten_cons, List.nodup_append] at hnodup
    rw [List.flatten_cons, List.forall_mem_append] at hsub
    have hnumbers : (c.map (number K)).Pairwise (· < ·) := by
      rw [List.pairwise_map]
      exact h.1.imp_of_mem fun hu hv hlt => (number_lt_iff hK (hsub.1 _ hu) (hsub.1 _ hv)).mpr hlt
    refine ⟨fun u _ => clears_of_ascending hnumbers fun v _ hlt => by omega,
      ih (rest_ascending hK) hnodup.2.1 (fun v hv => ?_) h.2⟩
    exact mem_rest.mpr ⟨hsub.2 v hv, fun hvc => hnodup.2.2 v hvc v hv rfl⟩

section Loop

variable {targetList args cs : List (Node α)} {P : List (List Nat)} {entry : Nat → Node α}

theorem Pending.head (h : Pending K targetList args cs (c :: P)) :
    c.Nodup ∧ (∀ v ∈ c, v ∈ K) ∧ ∀ v ∈ P.flatten, v ∉ c := by
  have hnodup := List.nodup_append.mp (List.flatten_cons ▸ h.nodup)
  refine ⟨hnodup.1, fun v hv => h.subset v (by simp [hv]), fun v hv hvc => ?_⟩
  exact hnodup.2.2 v hvc v hv rfl

theorem Pending.next (h : Pending K targetList args cs (c :: P)) (entry : Nat → Node α) :
    Pending (rest K c) (nextTargets K c targetList) (nextArgs K c entry targetList args)
      (cs.filter (!mentions c ·)) P := by
  obtain ⟨hc, hsub, hdisjoint⟩ := h.head
  have hplain : Plain (.boolExpr .andExpr args) := .bool h.plain
  refine ⟨rest_ascending h.ascending, areExpressions_keptTargets _ h.entries, ?_, ?_,
    (List.nodup_append.mp (List.flatten_cons ▸ h.nodup)).2.1, fun v hv => ?_⟩
  · simp only [nextArgs, List.forall_mem_cons]
    exact ⟨hplain.strip.mapColumns _, .exist, by simp⟩
  · have hcs : comparisonsList (nextArgs K c entry targetList args) =
        ((comparisonsList args).filter (!mentions (c.map (number K)) ·)).map
          (mapColumns (renumberVar (c.map (number K)))) := by
      simp only [nextArgs, comparisonsList, hplain.strip.comparisons_mapColumns,
        hplain.comparisons_strip, addedExists, comparisons, List.append_nil]
    rw [hcs]
    exact forall₂_renames h.ascending hsub hc h.columns
  · exact mem_rest.mpr ⟨h.subset v (by simp [hv]), hdisjoint v hv⟩

/-- The components that are still to be taken out, in the numbers of the next round. -/
theorem Pending.renumbered (h : Pending K targetList args cs (c :: P)) :
    (P.map (·.map (number K))).map (fun compo => compo.map (deacrease · (c.map (number K)))) =
      P.map (·.map (number (rest K c))) := by
  obtain ⟨hc, hsub, _⟩ := h.head
  exact map_deacrease_number h.ascending hc hsub fun v hv => h.subset v (by simp [hv])

/-- A round, up to the deletions from the range table, whatever the range table has become. -/
theorem Pending.rewriteConnexe_rtable (h : Pending K targetList args cs (c :: P))
    {rtable : List (Node α)} (hlength : rtable.length = K.length) (fromlist : List Nat) :
    rewriteConnexe (c.map (number K))
        (.query targetList rtable fromlist (.boolExpr .andExpr args)) =
      (deleteRtes (c.map (number K)) 0 rtable).map fun rtable' =>
        .query (nextTargets K c targetList) rtable' (substract fromlist c.length)
          (.boolExpr .andExpr (nextArgs K c (entryOf K rtable) targetList args)) := by
  obtain ⟨_, hsub, _⟩ := h.head
  have hplain : Plain (.boolExpr .andExpr args) := .bool h.plain
  have hlrte := mapM_listNth (c := c.map (number K)) (l := rtable)
    (f := fun i => (rtable[i - 1]?).getD .null) <| by
      refine List.forall_mem_map.mpr fun v hv => ⟨Nat.le_add_left _ _, ?_⟩
      have := number_le h.ascending (hsub v hv)
      have hpos : 1 ≤ number K v := Nat.le_add_left _ _
      rw [List.getElem?_eq_getElem (by omega), Option.getD_some]
  rw [List.map_map] at hlrte
  obtain ⟨flag, hcaptures⟩ := captures_root (c := c.map (number K)) hplain.residual
  rw [rewriteConnexe_eq h.entries hcaptures (hplain.residual.strip false).isExpression hlrte,
    List.length_map, capturedRoot, hplain.captured]
  rfl

/-- A round on the FROM entries `K`. -/
theorem Pending.rewriteConnexe (h : Pending K targetList args cs (c :: P)) :
    rewriteConnexe (c.map (number K)) (fromEntries K entry targetList args) =
      (deleteRtes (c.map (number K)) 0 (K.map entry)).map fun rtable =>
        .query (nextTargets K c targetList) rtable (substract (List.range' 1 K.length) c.length)
          (.boolExpr .andExpr (nextArgs K c entry targetList args)) := by
  obtain ⟨_, hsub, _⟩ := h.head
  have hmap : c.map (entryOf K (K.map entry)) = c.map entry :=
    List.map_congr_left fun v hv => by
      rw [entryOf, List.getElem?_map, getElem?_number h.ascending (hsub v hv), Option.map_some,
        Option.getD_some]
  rw [fromEntries, h.rewriteConnexe_rtable (List.length_map _)]
  simp only [nextArgs, hmap]

/-- A component that clears the other tables is taken out, if a table is left. -/
theorem Pending.round (h : Pending K targetList args cs (c :: P))
    (hclears : ∀ u ∈ rest K c, Clears (number K u) 0 (c.map (number K)))
    (hlen : c.length < K.length) :
    Exist.rewriteConnexe (c.map (number K)) (fromEntries K entry targetList args) =
      some (fromEntries (rest K c) entry (nextTargets K c targetList)
        (nextArgs K c entry targetList args)) := by
  obtain ⟨hc, hsub, _⟩ := h.head
  have hlength := length_rest hc (nodup_of_ascending h.ascending) hsub
  rw [h.rewriteConnexe, deleteRtes_of_clears h.ascending hc hsub hclears, substract_range hlen,
    Option.map_some, show K.length - c.length = (rest K c).length by omega]
  rfl

/-- The result of the rounds on `P` is well scoped. -/
def ScopedAfter (K : List Nat) (entry : Nat → Node α) (targetList args cs : List (Node α))
    (P : List (List Nat)) : Prop :=
  ∃ q', rewriteComponents (P.map (·.map (number K))) (fromEntries K entry targetList args) =
      some q' ∧ Scoped (rest K P.flatten) (cs.filter (!mentions P.flatten ·)) entry q'

theorem mentions_append (c c' : List Nat) (a : Node α) :
    mentions (c ++ c') a = (mentions c a || mentions c' a) := by
  have hcolumn : ∀ a : Node α, isColumnOf (c ++ c') a = (isColumnOf c a || isColumnOf c' a) := by
    intro a
    cases a with
    | var v => simp [isColumnOf, Bool.and_or_distrib_left]
    | _ => rfl
  cases a with
  | opExpr opno args =>
    induction args with
    | nil => rfl
    | cons a args ih =>
      simp only [mentions, List.any_cons, hcolumn] at ih ⊢
      rw [ih]
      cases isColumnOf c a <;> cases isColumnOf c' a <;> simp
  | _ => rfl

/-- The rounds after the first. -/
theorem Pending.scopedAfter_cons (h : Pending K targetList args cs (c :: P))
    (hclears : ∀ u ∈ rest K c, Clears (number K u) 0 (c.map (number K)))
    (hlen : c.length < K.length) (k : Nat) :
    ScopedAfter K entry targetList args cs (c :: P.take k) ↔
      ScopedAfter (rest K c) entry (nextTargets K c targetList) (nextArgs K c entry targetList args)
        (cs.filter (!mentions c ·)) (P.take k) := by
  have hpending : Pending K targetList args cs (c :: P.take k) := by
    have hsub : (P.take k).flatten.Sublist P.flatten := by
      have happend : P.flatten = (P.take k).flatten ++ (P.drop k).flatten := by
        rw [← List.flatten_append, List.take_append_drop]
      exact happend ▸ List.sublist_append_left _ _
    refine ⟨h.ascending, h.entries, h.plain, h.columns, ?_, fun v hv => ?_⟩
    · exact h.nodup.sublist (by simpa using hsub)
    · refine h.subset v ?_
      rcases List.mem_append.mp (List.flatten_cons ▸ hv) with hv | hv
      · simp [hv]
      · simp [hsub.subset hv]
  have hfilter : (cs.filter (!mentions c ·)).filter (!mentions (P.take k).flatten ·) =
      cs.filter (!mentions (c :: P.take k).flatten ·) := by
    rw [List.filter_filter, List.flatten_cons]
    refine List.filter_congr fun a _ => ?_
    rw [mentions_append]
    cases mentions c a <;> simp
  simp only [ScopedAfter, rewriteComponents, List.length_map, List.map_cons, List.length_cons,
    rewriteLoop, h.round hclears hlen, Option.bind_eq_bind, Option.bind_some, hpending.renumbered,
    hfilter, rest_rest, List.flatten_cons]

theorem Pending.scopedAfter_nil (h : Pending K targetList args cs P) :
    ScopedAfter K entry targetList args cs [] := by
  have hrest : rest K [] = K := by simp [rest]
  have hcs : cs.filter (!mentions [] ·) = cs := by
    refine List.filter_eq_self.mpr fun a _ => ?_
    have hcolumn : ∀ a : Node α, isColumnOf [] a = false := fun a => by
      cases a <;> simp [isColumnOf]
    cases a <;> simp [mentions, hcolumn]
  refine ⟨_, rfl, ?_⟩
  rw [List.flatten_nil, hrest, hcs]
  exact ⟨rfl, by simp [fromEntries, Node.fromlist, Node.rtable], h.columns⟩

/-- Components that clear the other tables are taken out as they should, if a table is left. -/
theorem Pending.scopedAfter (h : Pending K targetList args cs P) (hcleared : Cleared K P)
    (hlen : P.flatten.length < K.length) (k : Nat) :
    ScopedAfter K entry targetList args cs (P.take k) := by
  induction P generalizing K targetList args cs k with
  | nil =>
    rw [List.take_nil]
    exact h.scopedAfter_nil
  | cons c P ih =>
    cases k with
    | zero => exact h.scopedAfter_nil
    | succ k =>
      obtain ⟨hc, hsub, _⟩ := h.head
      rw [List.flatten_cons, List.length_append] at hlen
      have hlength := length_rest hc (nodup_of_ascending h.ascending) hsub
      rw [List.take_succ_cons, h.scopedAfter_cons hcleared.1 (by omega)]
      exact ih (h.next entry) hcleared.2 (by omega) k

/-- A round that leaves the query well scoped took out a component that clears the other tables, and
left a table. -/
theorem Pending.clears_of_scopedAfter (h : Pending K targetList args cs (c :: P))
    (hentry : Function.Injective entry) (hne : K ≠ [])
    (hscoped : ScopedAfter K entry targetList args cs [c]) :
    (∀ u ∈ rest K c, Clears (number K u) 0 (c.map (number K))) ∧ c.length < K.length := by
  obtain ⟨hc, hsub, _⟩ := h.head
  obtain ⟨q', hrun, hrtable, hfromlist, _⟩ := hscoped
  obtain ⟨rtable, hdelete, rfl⟩ : ∃ rtable,
      deleteRtes (c.map (number K)) 0 (K.map entry) = some rtable ∧ .query _ rtable _ _ = q' := by
    simp only [List.map_cons, List.map_nil, rewriteComponents, List.length_singleton, rewriteLoop,
      h.rewriteConnexe, Option.bind_eq_bind, Option.bind_eq_some_iff,
      Option.map_eq_some_iff] at hrun
    obtain ⟨_, ⟨rtable, hdelete, rfl⟩, hq'⟩ := hrun
    exact ⟨rtable, hdelete, Option.some.inj hq'⟩
  simp only [Node.rtable, Node.fromlist, List.flatten_cons, List.flatten_nil, List.append_nil]
    at hrtable hfromlist
  subst hrtable
  refine ⟨clears_of_deleted h.ascending hc hsub hentry hdelete, ?_⟩
  have hlength := length_rest hc (nodup_of_ascending h.ascending) hsub
  have hrange : List.range' 1 K.length ≠ [] := by simpa using hne
  have hone := List.length_pos_iff.mpr (substract_ne_nil hrange c.length)
  rw [hfromlist, List.length_range', List.length_map] at hone
  omega

/-- If the query is well scoped after each round, the components clear the other tables and a table
is left. -/
theorem Pending.cleared_of_rounds (h : Pending K targetList args cs P)
    (hentry : Function.Injective entry) (hne : K ≠ [])
    (hscoped : ∀ k ≤ P.length, ScopedAfter K entry targetList args cs (P.take k)) :
    Cleared K P ∧ P.flatten.length < K.length := by
  induction P generalizing K targetList args cs with
  | nil => exact ⟨trivial, by simpa using List.length_pos_iff.mpr hne⟩
  | cons c P ih =>
    obtain ⟨hc, hsub, _⟩ := h.head
    have hlength := length_rest hc (nodup_of_ascending h.ascending) hsub
    obtain ⟨hclears, hlen⟩ := h.clears_of_scopedAfter hentry hne
      (hscoped 1 (Nat.succ_le_succ (Nat.zero_le _)))
    have hrest := ih (h.next entry) (List.ne_nil_of_length_pos (by omega)) fun k hk =>
      (h.scopedAfter_cons hclears hlen k).mp (hscoped (k + 1) (Nat.succ_le_succ hk))
    refine ⟨⟨hclears, hrest.1⟩, ?_⟩
    rw [List.flatten_cons, List.length_append]
    omega

end Loop

/-! ### Conjuncts -/

theorem Operand.leaf {a : Node α} (h : Operand n a) : Leaf a := by
  cases h with
  | column => exact .column
  | constant => exact .constant

theorem Conjunct.plain {a : Node α} (h : Conjunct n a) : Plain a := by
  cases h with
  | null => exact .null
  | comparison ha hb => exact .comparison (by simpa using ⟨ha.leaf, hb.leaf⟩)
  | exist => exact .exist
  | notExist => exact .bool (by simpa using .exist)

theorem Conjunct.modifies {a : Node α} (h : Conjunct n a) : Self.Modifies none a := by
  cases h with
  | null => exact Self.modifies_null
  | comparison ha hb =>
    exact Self.modifies (.comparison (by simpa using ⟨ha.leaf.term, hb.leaf.term⟩)) none
  | exist => exact Self.modifies .exist none
  | notExist => exact Self.modifies (.bool (by simpa using .exist)) none

/-- A conjunct is moved as a whole, or stays. -/
theorem Conjunct.moved_eq {a : Node α} (h : Conjunct n a) :
    Self.moved none a = (if Self.takes a then [a] else []) ∧
      Self.strip none a = if Self.takes a then .null else a := by
  cases h with
  | null => exact ⟨rfl, rfl⟩
  | comparison => exact ⟨rfl, rfl⟩
  | exist => exact ⟨rfl, rfl⟩
  | notExist => exact ⟨rfl, rfl⟩

section Query

variable {targetList args : List (Node α)}

/-- What `create_connexe` computes for a query. -/
theorem walks_components (hargs : ∀ a ∈ args, Conjunct n a) :
    Walks n (components n (.boolExpr .andExpr args)) ∧
      ∀ a ∈ args, LinkedNode (components n (.boolExpr .andExpr args)) a := by
  obtain ⟨ctx, hwalk, hwalks, _, hlinked⟩ := walkList_conjuncts hargs (walks_make n)
  have hctx : components n (.boolExpr .andExpr args) = ctx := congrArg Prod.snd hwalk
  rw [hctx]
  exact ⟨hwalks, hlinked⟩

theorem Operand.same {a : Node α} (h : Operand n a) : SameOperand (List.range' 1 n) a a := by
  cases h with
  | column hv => exact .column (denotes_range hv)
  | constant => exact .constant

theorem renames_conjuncts (hargs : ∀ a ∈ args, Conjunct n a) :
    List.Forall₂ (Renames (List.range' 1 n)) (comparisonsList args) (comparisonsList args) := by
  rw [List.forall₂_same, comparisonsList_eq_flatMap]
  intro a ha
  obtain ⟨b, hb, ha⟩ := List.mem_flatMap.mp ha
  cases hargs b hb with
  | null => simp [comparisons] at ha
  | comparison ha' hb' =>
    obtain rfl := List.mem_singleton.mp ha
    exact .mk (.cons ha'.same (.cons hb'.same .nil))
  | exist => simp [comparisons] at ha
  | notExist => simp [comparisons, comparisonsList] at ha

/-- The query before the loop. -/
theorem pending_components (htarget : Node.areExpressions targetList = true)
    (hargs : ∀ a ∈ args, Conjunct n a) :
    Pending (List.range' 1 n) targetList args (comparisonsList args)
      (components n (.boolExpr .andExpr args)).listComposantesConnexes := by
  have hpart := (walks_components hargs).1.partitions
  exact ⟨List.pairwise_lt_range', htarget, fun a ha => (hargs a ha).plain,
    renames_conjuncts hargs, hpart.components,
    fun v hv => hpart.mem_iff.mp (List.mem_append_right _ hv)⟩

/-- What `my_modifier_self` makes of the conjuncts. -/
theorem modify_conjuncts (hargs : ∀ a ∈ args, Self.Modifies none a)
    (hmoved : ∀ a ∈ args, ∀ t ∈ Self.moved none a, t.isExpression = true) :
    ∃ context, mutate Self.myModifierSelf (.boolExpr .andExpr args)
        Self.makeContextOptimizerSelf =
          some (.boolExpr .andExpr (args.map (Self.strip none)), context) ∧
      Self.addConstraints [] (args.flatMap (Self.moved none)) =
        some context.alreadyConstrainRel ∧
      ∀ t ∈ context.alreadyConstrainRel, t.isExpression = true := by
  rw [← Self.moved_and, ← Self.strip_and]
  refine (Self.modifies_and hargs).run fun t ht => ?_
  rw [Self.moved_and] at ht
  obtain ⟨a, ha, hta⟩ := List.mem_flatMap.mp ht
  exact hmoved a ha t hta

/-! ### `optimize_exist` -/

/-- The query after the first `k` rounds of the loop of `optimize_exist`. -/
def afterRounds (k : Nat) (nq : Node α) : Option (Node α) := do
  let nq ← Self.optimizeSelfConstraint nq
  let ctx ← connexes nq
  rewriteComponents (ctx.listComposantesConnexes.take k) nq

theorem optimizeExist_eq_afterRounds {nq nq' : Node α} {ctx : ContextExists}
    (hself : Self.optimizeSelfConstraint nq = some nq') (hconnexes : connexes nq' = some ctx) :
    optimizeExist nq = afterRounds ctx.listComposantesConnexes.length nq := by
  simp only [optimizeExist, afterRounds, hself, hconnexes, Option.bind_eq_bind, Option.bind_some,
    List.take_length]

theorem connexes_fromEntries (hn : n ≠ 0) (entry : Nat → Node α) :
    connexes (fromEntries (List.range' 1 n) entry targetList args) =
      some (components n (.boolExpr .andExpr args)) := by
  rw [connexes_eq (by simpa [fromEntries, Node.rtable] using hn)]
  simp [fromEntries, Node.quals, Node.rtable]

theorem Conjunct.isExpression_moved {a : Node α} (h : Conjunct n a) :
    ∀ t ∈ Self.moved none a, t.isExpression = true := by
  rw [h.moved_eq.1]
  split
  · simpa using h.plain.residual.isExpression
  · simp

/-- The rounds of `optimize_exist`, if `optimize_self_constraint` has nothing to move. -/
theorem afterRounds_eq (hargs : ∀ a ∈ args, Conjunct n a)
    (hstays : ∀ a ∈ args, Self.takes a = false) (hn : n ≠ 0) (entry : Nat → Node α) (k : Nat) :
    afterRounds k (fromEntries (List.range' 1 n) entry targetList args) =
      rewriteComponents (((components n (.boolExpr .andExpr args)).listComposantesConnexes.take
        k).map (·.map (number (List.range' 1 n))))
        (fromEntries (List.range' 1 n) entry targetList args) := by
  obtain ⟨context, hmodify, hrel, _⟩ := modify_conjuncts (fun a ha => (hargs a ha).modifies)
    fun a ha => (hargs a ha).isExpression_moved
  have hstrip : args.map (Self.strip none) = args :=
    (List.map_congr_left fun a ha => by
      rw [(hargs a ha).moved_eq.2, hstays a ha, if_neg Bool.false_ne_true]).trans (List.map_id' _)
  have hmoved : args.flatMap (Self.moved none) = [] :=
    List.flatMap_eq_nil_iff.mpr fun a ha => by
      rw [(hargs a ha).moved_eq.1, hstays a ha, if_neg Bool.false_ne_true]
  rw [hstrip] at hmodify
  rw [hmoved] at hrel
  have hnil : context.alreadyConstrainRel = [] := (Option.some.inj hrel).symm
  have hself : Self.optimizeSelfConstraint (fromEntries (List.range' 1 n) entry targetList args) =
      some (fromEntries (List.range' 1 n) entry targetList args) := by
    simp [fromEntries, Self.optimizeSelfConstraint, hmodify, hnil, Self.rewriteSelf]
  have hpart := (walks_components hargs).1.partitions
  rw [map_number_range, afterRounds, hself, Option.bind_eq_bind, Option.bind_some,
    connexes_fromEntries hn, Option.bind_eq_bind, Option.bind_some]
  intro v hv
  obtain ⟨c, hc, hvc⟩ := List.mem_flatten.mp hv
  exact hpart.mem_iff.mp (List.mem_append_right _
    (List.mem_flatten.mpr ⟨c, List.mem_of_mem_take hc, hvc⟩))

/-- A conjunct that is moved makes a sub-select of a FROM entry. -/
theorem takes_of_afterRounds (htarget : Node.areExpressions targetList = true)
    (hargs : ∀ a ∈ args, Conjunct n a) {q' : Node α}
    (hrun : afterRounds 0 (fromEntries (List.range' 1 n) baseTable targetList args) = some q')
    (hrtable : q'.rtable = (List.range' 1 n).map baseTable) :
    n ≠ 0 ∧ ∀ a ∈ args, Self.takes a = false := by
  obtain ⟨context, hmodify, hrel, hexpr⟩ := modify_conjuncts (fun a ha => (hargs a ha).modifies)
    fun a ha => (hargs a ha).isExpression_moved
  rw [afterRounds, fromEntries, Self.optimizeSelfConstraint_eq htarget hmodify hexpr] at hrun
  split at hrun
  · next hplaced =>
    rw [Option.bind_eq_bind, Option.bind_some, Option.bind_eq_bind] at hrun
    obtain ⟨ctx, hconnexes, hq'⟩ := Option.bind_eq_some_iff.mp hrun
    obtain rfl := Option.some.inj hq'
    refine ⟨fun hn => ?_, fun a ha => ?_⟩
    · subst hn
      cases hconnexes
    · by_contra htakes
      have hmoved : args.flatMap (Self.moved none) ≠ [] := by
        refine List.ne_nil_of_mem (List.mem_flatMap.mpr ⟨a, ha, ?_⟩) (a := a)
        rw [(hargs a ha).moved_eq.1, Bool.eq_true_of_not_eq_false htakes, if_pos rfl]
        exact List.mem_cons_self
      obtain ⟨t, ht⟩ := List.exists_mem_of_ne_nil _ (Self.addConstraints_ne_nil hmoved hrel)
      have hlt := hplaced t ht
      rw [List.length_map, List.length_range'] at hlt
      have hentry := congrArg (·[Self.placeOf t]?) hrtable
      simp only [Node.rtable, List.getElem?_mapIdx, List.getElem?_map,
        List.getElem?_range' hlt, Option.map_some] at hentry
      obtain ⟨kind, subquery, hwraps, hkind⟩ := Self.wraps_entry targetList
        (Self.placeOf t) (1 + 1 * Self.placeOf t) context.alreadyConstrainRel .rteRelation .null
      rw [baseTable, hwraps, hkind (.inr ⟨t, ht, rfl⟩)] at hentry
      cases Option.some.inj hentry
  · cases hrun

/-- On an AND of comparisons with two operands and of EXISTS and NOT EXISTS, the query is well
scoped after each round of `optimize_exist` exactly if `optimize_self_constraint` moves no
comparison, some table is restricted by an enclosing query, and each component clears the tables
that are to stay: then the range table is the given one without the tables taken out, the FROM
references are its numbers, and every comparison that is left compares the columns that it did. -/
theorem optimizeExist_scoped_iff (htarget : Node.areExpressions targetList = true)
    (hargs : ∀ a ∈ args, Conjunct n a) :
    (∀ entry : Nat → Node α,
      ∀ k ≤ (components n (.boolExpr .andExpr args)).listComposantesConnexes.length,
      ∃ q', afterRounds k (fromEntries (List.range' 1 n) entry targetList args) = some q' ∧
        Scoped
          (rest (List.range' 1 n)
            ((components n (.boolExpr .andExpr args)).listComposantesConnexes.take k).flatten)
          ((comparisonsList args).filter (!mentions
            ((components n (.boolExpr .andExpr args)).listComposantesConnexes.take k).flatten ·))
          entry q') ↔
      (∀ a ∈ args, Self.takes a = false) ∧
        (components n (.boolExpr .andExpr args)).composanteConnexeSubLevel ≠ [] ∧
        Cleared (List.range' 1 n)
          (components n (.boolExpr .andExpr args)).listComposantesConnexes := by
  have hpending := pending_components htarget hargs
  have hpart := (walks_components hargs).1.partitions
  have hlength := hpart.length_eq
  simp only [List.length_append, List.length_range'] at hlength
  constructor
  · intro hscoped
    obtain ⟨q', hrun, hfirst⟩ := hscoped baseTable 0 (Nat.zero_le _)
    have hrest : rest (List.range' 1 n) [] = List.range' 1 n := by simp [rest]
    obtain ⟨hn, hstays⟩ := takes_of_afterRounds htarget hargs hrun
      (by simpa [hrest] using hfirst.rtable)
    simp only [afterRounds_eq hargs hstays hn] at hscoped
    have hne : List.range' 1 n ≠ [] := by simpa using hn
    have hinj : Function.Injective (baseTable : Nat → Node α) := fun i j h => by
      simpa [baseTable] using h
    obtain ⟨hcleared, hlt⟩ := hpending.cleared_of_rounds hinj hne
      fun k hk => hscoped baseTable k hk
    rw [List.length_range'] at hlt
    exact ⟨hstays, List.length_pos_iff.mp (by omega), hcleared⟩
  · rintro ⟨hstays, hsub, hcleared⟩ entry k _
    have hpos := List.length_pos_iff.mpr hsub
    rw [afterRounds_eq hargs hstays (by omega)]
    exact hpending.scopedAfter hcleared (by rw [List.length_range']; omega) k

end Query

/-- `o.a = r.a` for the enclosing table `o`, and a comparison of two of `r, s, t` -/
def correlatedAnd (i j : Nat) : List (Node Int) :=
  [.opExpr 96 [.var ⟨1, 1, 1⟩, .var ⟨1, 1, 0⟩], .opExpr 96 [.var ⟨i, 1, 0⟩, .var ⟨j, 1, 0⟩]]

theorem correlatedAnd_conjunct {i j : Nat} (hi : 1 ≤ i ∧ i ≤ 3) (hj : 1 ≤ j ∧ j ≤ 3) :
    ∀ a ∈ correlatedAnd i j, Conjunct 3 a := by
  simp only [correlatedAnd, List.forall_mem_cons]
  exact ⟨.comparison (.column fun h => by cases h) (.column fun _ => by decide),
    .comparison (.column fun _ => hi) (.column fun _ => hj), by simp⟩

/-- Of `r, s, t` in `o.a = r.a AND s.a = t.a`, the component `s, t` is taken out as it should. -/
theorem optimizeExist_scoped_iff_ascending :
    (components 3 (.boolExpr .andExpr (correlatedAnd 2 3))).listComposantesConnexes = [[2, 3]] ∧
      ∀ entry : Nat → Node Int, ∀ k ≤
          (components 3 (.boolExpr .andExpr (correlatedAnd 2 3))).listComposantesConnexes.length,
        ∃ q', afterRounds k (fromEntries (List.range' 1 3) entry [] (correlatedAnd 2 3)) = some q' ∧
          Scoped
            (rest (List.range' 1 3) ((components 3
              (.boolExpr .andExpr (correlatedAnd 2 3))).listComposantesConnexes.take k).flatten)
            ((comparisonsList (correlatedAnd 2 3)).filter (!mentions ((components 3
              (.boolExpr .andExpr (correlatedAnd 2 3))).listComposantesConnexes.take k).flatten ·))
            entry q' :=
  ⟨by decide, (optimizeExist_scoped_iff rfl
    (correlatedAnd_conjunct (by decide) (by decide))).mpr ⟨by decide, by decide, by decide⟩⟩

/-- The component `2, 1` of three tables is taken out as well: its second index is negative. -/
example : Cleared (List.range' 1 3) [[2, 1]] := by decide

/-- In `o.a = r.a AND t.a = s.a` the tables `t` and `r` are deleted instead of `t` and `s`.  In
`r.a = s.a` alone no table is left, and one FROM reference. -/
theorem optimizeExist_scoped_fails :
    (components 3 (.boolExpr .andExpr (correlatedAnd 3 2))).listComposantesConnexes = [[3, 2]] ∧
      (∃ q', optimizeExist (fromEntries [1, 2, 3] baseTable [] (correlatedAnd 3 2)) = some q' ∧
        q'.rtable = [baseTable 2] ∧
        ¬ Scoped [1] [.opExpr 96 [.var ⟨1, 1, 1⟩, .var ⟨1, 1, 0⟩]] baseTable q') ∧
      ∃ q', optimizeExist (fromEntries [1, 2] baseTable []
          [(.opExpr 96 [.var ⟨1, 1, 0⟩, .var ⟨2, 1, 0⟩] : Node Int)]) = some q' ∧
        q'.rtable = [] ∧ q'.fromlist = [1] := by
  refine ⟨by decide, ⟨_, rfl, rfl, fun hscoped => ?_⟩, _, rfl, rfl, rfl⟩
  have hrtable : [(baseTable 2 : Node Int)] = [baseTable 1] := hscoped.rtable
  simp [baseTable] at hrtable

end Infed.Exist
