import Infed.Codd.Certain
import Infed.Codd.Order
import Infed.NotNullSound
import Mathlib.Data.List.Pairwise

/-! Null checks that are left out.  A condition is rewritten with checks only for the columns that
are not known at the comparison, where the sets of the AND/OR nodes on the way are known.  The
rewriting is true on the same rows as the one with all checks, as long as each table occurs once,
because what is known at a comparison holds wherever the comparison can change the result. -/

namespace Infed.Codd

variable {α : Type} {cat : Catalog} {I : Interp α} {D : Database α} {os : Scopes} {ρ : Env α}

/-- The null check of an argument of a comparison, unless the column is in `K`. -/
def missing (os : Scopes) (K : Finset Column) : Node α → List (Node α)
  | .var v => if (columnOf os v).all (· ∈ K) then [] else [isNull v]
  | _ => []

mutual

/-- The condition at polarity `p`, with checks for the columns that are not known; `K` is what is
known where the condition stands. -/
def weaken : Scopes → Bool → Finset Column → Node α → Node α
  | os, false, K, .opExpr opno args =>
    if (args.flatMap (missing os K)).isEmpty then .opExpr opno args
    else .boolExpr .orExpr (args.flatMap (missing os K) ++ [.opExpr opno args])
  | os, p, K, .boolExpr .notExpr args => .boolExpr .notExpr (weakenList os (!p) K args)
  | os, p, K, .boolExpr boolop args =>
    .boolExpr boolop (weakenList os p (K ∪ notNull p os (.boolExpr boolop args)) args)
  | os, p, K, .subLink kind testexpr subselect => .subLink kind testexpr (weaken os p K subselect)
  | os, p, K, .query targetList rtable fromlist quals =>
    .query targetList rtable fromlist (weaken (rtable.map relidOf :: os) p K quals)
  | _, _, _, a => a

def weakenList : Scopes → Bool → Finset Column → List (Node α) → List (Node α)
  | _, _, _, [] => []
  | os, p, K, node :: nodes => weaken os p K node :: weakenList os p K nodes

end

theorem weakenList_eq_map (os : Scopes) (p : Bool) (K : Finset Column) (nodes : List (Node α)) :
    weakenList os p K nodes = nodes.map (weaken os p K) := by
  induction nodes with
  | nil => rfl
  | cons node nodes ih => rw [weakenList, ih, List.map_cons]

theorem weaken_boolExpr {boolop : BoolExprType} (hop : boolop ≠ .notExpr) (os : Scopes) (p : Bool)
    (K : Finset Column) (args : List (Node α)) :
    weaken os p K (.boolExpr boolop args) =
      .boolExpr boolop (args.map (weaken os p (K ∪ notNull p os (.boolExpr boolop args)))) := by
  cases boolop with
  | notExpr => exact absurd rfl hop
  | andExpr | orExpr => cases p <;> rw [weaken, weakenList_eq_map] <;> simp

theorem weaken_not (os : Scopes) (p : Bool) (K : Finset Column) (a : Node α) :
    weaken os p K (.boolExpr .notExpr [a]) = .boolExpr .notExpr [weaken os (!p) K a] := by
  simp [weaken, weakenList]

theorem weaken_selectFrom (os : Scopes) (p : Bool) (K : Finset Column) (targetList : List (Node α))
    (relids : List Oid) (quals : Node α) :
    weaken os p K (selectFrom targetList relids quals) =
      selectFrom targetList relids (weaken (relids :: os) p K quals) := by
  rw [selectFrom, weaken, map_relidOf_baseTable, selectFrom]

theorem weaken_existsFrom (os : Scopes) (p : Bool) (K : Finset Column) (targetList : List (Node α))
    (relids : List Oid) (quals : Node α) :
    weaken os p K (existsFrom targetList relids quals) =
      existsFrom targetList relids (weaken (relids :: os) p K quals) := by
  rw [existsFrom, weaken, weaken_selectFrom, existsFrom]

/-! ### Both rewritings follow the order -/

/-- A rewriting counts as `p` only where the condition does. -/
theorem Ordered.countsAs {p : Bool} {a out : Node α} (h : Ordered p a out)
    (hout : CountsAs I D p out ρ) : CountsAs I D p a ρ := by
  cases p with
  | true =>
    rw [countsAs_true] at hout ⊢
    exact Kleene.eq_true_of_le (h I D ρ) hout
  | false =>
    rw [countsAs_false] at hout ⊢
    exact fun ha => hout (Kleene.eq_true_of_le (h I D ρ) ha)

theorem ordered_weaken {a : Node α} (h : Cond (Comparison cat weakened) False os a) (p : Bool)
    (K : Finset Column) : Ordered p a (weaken os p K a) := by
  induction h generalizing p K with
  | leaf ha =>
    obtain ⟨_, _, _⟩ := ha
    cases p with
    | true => exact Ordered.refl _ _
    | false =>
      rw [weaken]
      split
      · exact Ordered.refl _ _
      · exact Below.or (by simp)
  | null => cases p <;> exact Ordered.refl _ _
  | and _ _ ih =>
    rw [weaken_boolExpr (by simp)]
    refine Ordered.boolExpr (by simp) ?_
    rw [List.forall₂_map_right_iff]
    exact List.forall₂_same.mpr fun a ha => ih a ha p _
  | or _ _ ih =>
    rw [weaken_boolExpr (by simp)]
    refine Ordered.boolExpr (by simp) ?_
    rw [List.forall₂_map_right_iff]
    exact List.forall₂_same.mpr fun a ha => ih a ha p _
  | not _ _ ih =>
    rw [weaken_not]
    exact Ordered.not (ih _ K)
  | exist _ ih =>
    rw [weaken_existsFrom]
    exact Ordered.existsFrom (ih p K) _ _

theorem ordered_translate {a : Node α} (h : Cond (Comparison cat weakened) False os a) (p : Bool) :
    Ordered p a (translate leaf p a) := by
  induction h generalizing p with
  | leaf ha =>
    obtain ⟨_, _, _⟩ := ha
    cases p with
    | true => exact Ordered.refl _ _
    | false => exact Below.or (by simp)
  | null => exact Ordered.refl _ _
  | and _ _ ih | or _ _ ih =>
    simp only [translate, translateList_eq_map]
    refine Ordered.boolExpr (by simp) ?_
    rw [List.forall₂_map_right_iff]
    exact List.forall₂_same.mpr fun a ha => ih a ha p
  | not _ _ ih =>
    simp only [translate, translateList]
    exact Ordered.not (ih _)
  | exist _ ih =>
    rw [translate_existsFrom]
    exact Ordered.existsFrom (ih p) _ _

/-! ### Columns of inner tables -/

mutual

/-- The tables of the sub-selects of a condition. -/
def tables : Node α → List Oid
  | .boolExpr _ args => tablesList args
  | .subLink _ _ subselect => tables subselect
  | .query _ rtable _ quals => rtable.map relidOf ++ tables quals
  | _ => []

def tablesList : List (Node α) → List Oid
  | [] => []
  | node :: nodes => tables node ++ tablesList nodes

end

theorem tablesList_eq_flatMap (nodes : List (Node α)) : tablesList nodes =
    nodes.flatMap tables := by
  induction nodes with
  | nil => rfl
  | cons node nodes ih => rw [tablesList, ih, List.flatMap_cons]

theorem tables_existsFrom (targetList : List (Node α)) (relids : List Oid) (quals : Node α) :
    tables (existsFrom targetList relids quals) = relids ++ tables quals := by
  rw [existsFrom, selectFrom, tables, tables, map_relidOf_baseTable]

theorem mem_notNull_comparison {a : Node α} (ha : Comparison cat weakened os a) {p : Bool}
    {col : Column} (hcol : col ∈ notNull p os a) :
    p = true ∧ ∃ opno args v, a = .opExpr opno args ∧ .var v ∈ args ∧ columnOf os v = some col := by
  cases ha with
  | @mk opno args _ hargs _ =>
    cases p with
    | false => exact absurd hcol (Finset.notMem_empty _)
    | true =>
      rw [notNull, List.mem_toFinset, List.mem_filterMap] at hcol
      obtain ⟨b, hb, hbcol⟩ := hcol
      cases hargs b hb with
      | @column v _ => exact ⟨rfl, opno, args, v, rfl, hb, hbcol⟩
      | constant => cases hbcol

/-- The columns of a condition's sets are of tables in scope or of its sub-selects. -/
theorem notNull_tables {a : Node α} (h : Cond (Comparison cat weakened) False os a) {p : Bool}
    {col : Column} (hcol : col ∈ notNull p os a) : col.1 ∈ os.flatten ∨ col.1 ∈ tables a := by
  have hbool : ∀ {os : Scopes} {boolop : BoolExprType} {args : List (Node α)} {p : Bool},
      boolop ≠ .notExpr → args ≠ [] →
      (∀ a ∈ args, col ∈ notNull p os a → col.1 ∈ os.flatten ∨ col.1 ∈ tables a) →
      col ∈ notNull p os (.boolExpr boolop args) →
      col.1 ∈ os.flatten ∨ col.1 ∈ tables (.boolExpr boolop args) := by
    intro os boolop args p hop hne hargs hcol
    obtain ⟨a, ha, hacol⟩ : ∃ a ∈ args, col ∈ notNull p os a := by
      rw [notNull_boolExpr hop] at hcol
      cases hj : joint boolop p with
      | true =>
        rw [hj, mem_merge_true] at hcol
        simpa using hcol
      | false =>
        rw [hj, mem_merge_false (by simpa using hne)] at hcol
        obtain ⟨a, ha⟩ := List.exists_mem_of_ne_nil _ hne
        exact ⟨a, ha, hcol _ (List.mem_map_of_mem ha)⟩
    refine (hargs a ha hacol).imp_right fun hin => ?_
    rw [tables, tablesList_eq_flatMap]
    exact List.mem_flatMap.mpr ⟨a, ha, hin⟩
  induction h generalizing p with
  | leaf ha =>
    obtain ⟨_, _, _, v, _, _, hv⟩ := mem_notNull_comparison ha hcol
    exact .inl (mem_flatten_of_columnOf hv)
  | null => cases p <;> exact absurd hcol (Finset.notMem_empty _)
  | and hne _ ih => exact hbool (by simp) hne (fun a ha => ih a ha) hcol
  | or hne _ ih => exact hbool (by simp) hne (fun a ha => ih a ha) hcol
  | not _ _ ih =>
    rw [notNull_not] at hcol
    simpa [tables, tablesList] using ih hcol
  | exist _ ih =>
    rw [notNull_existsFrom] at hcol
    rw [tables_existsFrom, List.mem_append]
    rcases ih hcol with hin | hin
    · rw [List.flatten_cons, List.mem_append] at hin
      rcases hin with hin | hin
      · exact .inr (.inl hin)
      · exact .inl hin
    · exact .inr (.inr hin)

/-- What is known about columns of the condition's own sub-selects is in the condition's set, or in
`S`. -/
def Justified (S : Finset Column) (p : Bool) (os : Scopes) (K : Finset Column)
    (a : Node α) : Prop :=
  ∀ col ∈ K, col.1 ∈ tables a → col ∈ notNull p os a ∨ col ∈ S

/-- Below an AND/OR node, whose set is then known too. -/
theorem Justified.argument {S K : Finset Column} {p : Bool} {boolop : BoolExprType}
    (hop : boolop ≠ .notExpr) {args : List (Node α)}
    (hargs : ∀ a ∈ args, Cond (Comparison cat weakened) False os a)
    (hdist : (os.flatten ++ tables (.boolExpr boolop args)).Nodup)
    (h : Justified S p os K (.boolExpr boolop args)) {a : Node α} (ha : a ∈ args) :
    Justified S p os (K ∪ notNull p os (.boolExpr boolop args)) a := by
  rw [tables, tablesList_eq_flatMap, List.nodup_append] at hdist
  obtain ⟨_, hnodup, hdisj⟩ := hdist
  intro col hcol hin
  have hin' : col.1 ∈ args.flatMap tables := List.mem_flatMap.mpr ⟨a, ha, hin⟩
  have hnode : col ∈ notNull p os (.boolExpr boolop args) ∨ col ∈ S := by
    rcases Finset.mem_union.mp hcol with hcol | hcol
    · exact h col hcol (by rw [tables, tablesList_eq_flatMap]; exact hin')
    · exact .inl hcol
  refine hnode.imp_left fun hcol => ?_
  rw [notNull_boolExpr hop] at hcol
  cases hj : joint boolop p with
  | false =>
    rw [hj, mem_merge_false (by simpa using List.ne_nil_of_mem ha)] at hcol
    exact hcol _ (List.mem_map_of_mem ha)
  | true =>
    rw [hj, mem_merge_true] at hcol
    obtain ⟨_, hs, hcol⟩ := hcol
    obtain ⟨b, hb, rfl⟩ := List.mem_map.mp hs
    -- the table of the column is inside `a`, so no other argument has the column in its set
    by_cases e : b = a
    · rwa [← e]
    · rcases notNull_tables (hargs b hb) hcol with hout | hout
      · exact absurd rfl (hdisj _ hout _ hin')
      · have : Std.Symm (Function.onFun List.Disjoint (tables (α := α))) := ⟨fun _ _ h => h.symm⟩
        exact absurd hin ((List.nodup_flatMap.mp hnodup).2.forall hb ha e hout)

/-! ### The same rows -/

/-- The columns of `S` are NULL in no row. -/
def NeverNull (D : Database α) (S : Finset Column) : Prop :=
  ∀ col ∈ S, ∀ row ∈ D col.1, row.getD (col.2 - 1) none ≠ none

theorem NeverNull.nonNull {S : Finset Column} (h : NeverNull D S) (hover : ρ.Over D os) :
    NonNull os ρ S := by
  intro v col hv hcol
  simp only [columnOf, Option.bind_eq_bind, Option.bind_eq_some_iff, Option.some.injEq] at hv
  obtain ⟨relids, hrelids, relid, hrelid, rfl⟩ := hv
  exact h _ hcol _ (hover _ _ _ _ hrelids hrelid)

/-- A comparison in a scope with each table once. -/
def Single (cat : Catalog) (os : Scopes) (a : Node α) : Prop :=
  Comparison cat weakened os a ∧ os.flatten.Nodup

/-- A comparison that is true has no NULL among its columns. -/
theorem nonNull_comparison (hI : ∀ opno ∈ weakened, I.Strict opno) {a : Node α}
    (ha : Single cat os a) (p : Bool) (ρ : Env α) (h : CountsAs I D p a ρ) :
    NonNull os ρ (notNull p os a) := by
  obtain ⟨ha, hnodup⟩ := ha
  intro v col hv hcol hnull
  obtain ⟨rfl, opno, args, w, rfl, hw, hwcol⟩ := mem_notNull_comparison ha hcol
  obtain rfl := columnOf_inj hnodup hv hwcol
  have hmem : none ∈ evalScalars I D args ρ := by
    rw [evalScalars_eq_map]
    exact List.mem_map.mpr ⟨.var v, hw, hnull⟩
  cases ha with
  | mk hop _ _ =>
    rw [countsAs_true, evalCond, hI _ hop _ hmem] at h
    cases h

theorem nodup_argument {boolop : BoolExprType} {args : List (Node α)}
    (h : (os.flatten ++ tables (.boolExpr boolop args)).Nodup) {a : Node α} (ha : a ∈ args) :
    (os.flatten ++ tables a).Nodup := by
  rw [tables, tablesList_eq_flatMap, List.flatMap_def] at h
  exact h.sublist
    ((List.Sublist.refl _).append (List.sublist_flatten_of_mem (List.mem_map_of_mem ha)))

theorem nodup_quals {targetList : List (Node α)} {relids : List Oid} {quals : Node α}
    (h : (os.flatten ++ tables (existsFrom targetList relids quals)).Nodup) :
    ((relids :: os).flatten ++ tables quals).Nodup := by
  rw [tables_existsFrom, ← List.append_assoc] at h
  rw [List.flatten_cons]
  exact (List.perm_append_comm.append_right _).nodup_iff.mp h

theorem cond_single {a : Node α} (h : Cond (Comparison cat weakened) False os a)
    (hdist : (os.flatten ++ tables a).Nodup) : Cond (Single cat) False os a := by
  induction h with
  | leaf ha => exact .leaf ⟨ha, hdist.of_append_left⟩
  | null => exact .null
  | and hne _ ih => exact .and hne fun a ha => ih a ha (nodup_argument hdist ha)
  | or hne _ ih => exact .or hne fun a ha => ih a ha (nodup_argument hdist ha)
  | not hex _ ih => exact .not hex (ih (nodup_argument hdist List.mem_cons_self))
  | exist _ ih => exact .exist (ih (nodup_quals hdist))

theorem countsAs_isNull {v : Var} : CountsAs I D false (isNull v) ρ ↔ ρ.column v ≠ none := by
  rw [countsAs_false, isNull, evalCond, evalScalar]
  cases ρ.column v <;> simp [Kleene.ofBool]

theorem countsAs_checked {ks : List (Node α)} {a : Node α} :
    CountsAs I D false (if ks.isEmpty then a else .boolExpr .orExpr (ks ++ [a])) ρ ↔
      (∀ k ∈ ks, CountsAs I D false k ρ) ∧ CountsAs I D false a ρ := by
  cases ks with
  | nil => simp
  | cons k ks =>
    rw [List.isEmpty_cons, if_neg Bool.false_ne_true, countsAs_joint (by simp) rfl,
      List.forall_mem_append]
    simp

/-- A comparison that counts negatively: what is known is not NULL unless the comparison is true, so
its missing checks are false. -/
theorem countsAs_weaken_comparison {a : Node α} (ha : Comparison cat weakened os a)
    {K : Finset Column} (hK : CountsAs I D false a ρ → NonNull os ρ K) :
    CountsAs I D false (weaken os false K a) ρ ↔ CountsAs I D false (leaf false a) ρ := by
  cases ha with
  | @mk opno args _ hargs _ =>
  rw [weaken, countsAs_checked, leaf, if_neg Bool.false_ne_true, countsAs_joint (by simp) rfl,
    List.forall_mem_append]
  simp only [List.mem_singleton, forall_eq]
  refine and_congr_left fun hcmp => ⟨fun h k hk => ?_, fun h k hk => ?_⟩
  · obtain ⟨b, hb, hkb⟩ := List.mem_flatMap.mp hk
    cases hargs b hb with
    | constant => simp [nullCheck] at hkb
    | @column v hv =>
      obtain ⟨relid, hcol, _⟩ := hv
      rw [nullCheck, List.mem_singleton] at hkb
      subst hkb
      by_cases hin : (relid, v.varattno) ∈ K
      · exact countsAs_isNull.mpr (hK hcmp v _ hcol hin)
      · exact h _ (List.mem_flatMap.mpr ⟨_, hb, by simp [missing, hcol, hin]⟩)
  · obtain ⟨b, hb, hkb⟩ := List.mem_flatMap.mp hk
    refine h k (List.mem_flatMap.mpr ⟨b, hb, ?_⟩)
    cases hargs b hb with
    | constant => simp [missing] at hkb
    | column _ =>
      simp only [missing] at hkb
      split at hkb
      · simp at hkb
      · exact hkb

/-- An AND/OR node: where the node counts as `p`, its set is known in its arguments. -/
theorem countsAs_weaken_boolExpr {boolop : BoolExprType} (hop : boolop ≠ .notExpr) {p : Bool}
    {args : List (Node α)} {K : Finset Column}
    (hsound : CountsAs I D p (.boolExpr boolop args) ρ →
      NonNull os ρ (K ∪ notNull p os (.boolExpr boolop args)))
    {f g : Node α → Node α} (hf : ∀ a ∈ args, CountsAs I D p (f a) ρ → CountsAs I D p a ρ)
    (hg : ∀ a ∈ args, CountsAs I D p (g a) ρ → CountsAs I D p a ρ)
    (hargs : ∀ a ∈ args, (CountsAs I D p a ρ →
        NonNull os ρ (K ∪ notNull p os (.boolExpr boolop args))) →
      (CountsAs I D p (f a) ρ ↔ CountsAs I D p (g a) ρ)) :
    CountsAs I D p (.boolExpr boolop (args.map f)) ρ ↔
      CountsAs I D p (.boolExpr boolop (args.map g)) ρ := by
  cases hj : joint boolop p with
  | true =>
    simp only [countsAs_joint hop hj, List.forall_mem_map] at hsound ⊢
    exact ⟨fun h a ha => (hargs a ha fun _ => hsound fun b hb => hf b hb (h b hb)).mp (h a ha),
      fun h a ha => (hargs a ha fun _ => hsound fun b hb => hg b hb (h b hb)).mpr (h a ha)⟩
  | false =>
    simp only [countsAs_not_joint hop hj, List.mem_map, exists_exists_and_eq_and] at hsound ⊢
    refine exists_congr fun a => and_congr_right fun ha => hargs a ha fun hcounts => ?_
    exact hsound ⟨a, ha, hcounts⟩

/-- Wherever what is known holds if the condition counts as `p`, the rewriting with the missing
checks counts as the one with all checks does. -/
def SameRows (I : Interp α) (D : Database α) (S : Finset Column) (os : Scopes)
    (a : Node α) : Prop :=
  ∀ (p : Bool) (K : Finset Column) (ρ : Env α), ρ.Over D os → (os.flatten ++ tables a).Nodup →
    supported D os p a = true → (CountsAs I D p a ρ → NonNull os ρ K) → Justified S p os K a →
    (CountsAs I D p (weaken os p K a) ρ ↔ CountsAs I D p (translate leaf p a) ρ)

section

variable {S : Finset Column}

theorem sameRows_comparison {a : Node α} (ha : Comparison cat weakened os a) :
    SameRows I D S os a := by
  intro p K ρ _ _ _ hK _
  have hleaf : translate leaf p a = leaf p a := by
    obtain ⟨_, _, _⟩ := ha
    rfl
  rw [hleaf]
  cases p with
  | true =>
    obtain ⟨_, _, _⟩ := ha
    exact Iff.rfl
  | false => exact countsAs_weaken_comparison ha hK

variable (hI : ∀ opno ∈ weakened, I.Strict opno)
include hI

theorem notNull_sound_single {a : Node α} (h : Cond (Comparison cat weakened) False os a)
    (hdist : (os.flatten ++ tables a).Nodup) {p : Bool} (hsup : supported D os p a = true)
    (hp : CountsAs I D p a ρ) : NonNull os ρ (notNull p os a) :=
  notNull_sound (fun _ _ ha => nonNull_comparison hI ha) (cond_single h hdist) hsup hp

theorem sameRows_boolExpr {boolop : BoolExprType} (hop : boolop ≠ .notExpr) {args : List (Node α)}
    (hnode : Cond (Comparison cat weakened) False os (.boolExpr boolop args))
    (hargs : ∀ a ∈ args, Cond (Comparison cat weakened) False os a)
    (ih : ∀ a ∈ args, SameRows I D S os a) : SameRows I D S os (.boolExpr boolop args) := by
  intro p K ρ hover hdist hsup hK hjust
  have htranslate : translate leaf p (.boolExpr boolop args) =
      .boolExpr boolop (args.map (translate leaf p)) := by
    cases boolop with
    | notExpr => exact absurd rfl hop
    | andExpr | orExpr => simp only [translate, translateList_eq_map]
  rw [weaken_boolExpr hop, htranslate]
  refine countsAs_weaken_boolExpr hop
    (fun hcounts => (hK hcounts).union (notNull_sound_single hI hnode hdist hsup hcounts))
    (fun a ha => (ordered_weaken (hargs a ha) p _).countsAs)
    (fun a ha => (ordered_translate (hargs a ha) p).countsAs) fun a ha hknown => ?_
  exact ih a ha p _ ρ hover (nodup_argument hdist ha) ((supported_boolExpr hop).mp hsup a ha) hknown
    (hjust.argument hop hargs hdist ha)

/-- Inside a sub-select, what is known about its own columns is in the set of its WHERE. -/
theorem sameRows_exists (hS : NeverNull D S) {targetList : List (Node α)} {relids : List Oid}
    {quals : Node α} (hquals : Cond (Comparison cat weakened) False (relids :: os) quals)
    (ih : SameRows I D S (relids :: os) quals) :
    SameRows I D S os (existsFrom targetList relids quals) := by
  intro p K ρ hover hdist hsup hK hjust
  have hsup' := (supported_existsFrom.mp hsup).2
  have hjust' : Justified S p (relids :: os) K quals := by
    intro col hcol hin
    rw [← notNull_existsFrom p os targetList]
    exact hjust col hcol (by rw [tables_existsFrom]; exact List.mem_append_right _ hin)
  -- for one combination of rows, given that what is known outside holds
  have hinner : ∀ z ∈ combinations (relids.map D) (List.range' 1 relids.length),
      (CountsAs I D p quals (ρ.push z) → NonNull os ρ K) →
      (CountsAs I D p (weaken (relids :: os) p K quals) (ρ.push z) ↔
        CountsAs I D p (translate leaf p quals) (ρ.push z)) := by
    intro z hz hout
    have hover' : (ρ.push z).Over D (relids :: os) := hover.push hz
    refine ih p K (ρ.push z) hover' (nodup_quals hdist) hsup' (fun hcounts => ?_) hjust'
    have hown := notNull_sound_single hI hquals (nodup_quals hdist) hsup' hcounts
    refine (hout hcounts).push (hown.union (hS.nonNull hover')) fun col hcol hin => ?_
    rw [Finset.mem_union, ← notNull_existsFrom p os targetList]
    exact hjust col hcol (by rw [tables_existsFrom]; exact List.mem_append_left _ hin)
  rw [weaken_existsFrom, translate_existsFrom]
  cases p with
  | true =>
    rw [countsAs_exists_true] at hK
    simp only [countsAs_exists_true]
    exact exists_congr fun z => and_congr_right fun hz => hinner z hz fun h => hK ⟨z, hz, h⟩
  | false =>
    rw [countsAs_exists_false] at hK
    simp only [countsAs_exists_false]
    constructor
    · intro h z hz
      exact (hinner z hz fun _ => hK fun y hy =>
        (ordered_weaken hquals false K).countsAs (h y hy)).mp (h z hz)
    · intro h z hz
      exact (hinner z hz fun _ => hK fun y hy =>
        (ordered_translate hquals false).countsAs (h y hy)).mpr (h z hz)

theorem sameRows (hS : NeverNull D S) {a : Node α}
    (h : Cond (Comparison cat weakened) False os a) : SameRows I D S os a := by
  induction h with
  | leaf ha => exact sameRows_comparison ha
  | null => intro p K ρ _ _ _ _ _; cases p <;> exact Iff.rfl
  | and hne hargs ih => exact sameRows_boolExpr hI (by simp) (.and hne hargs) hargs ih
  | or hne hargs ih => exact sameRows_boolExpr hI (by simp) (.or hne hargs) hargs ih
  | @not os a hex ha ih =>
    intro p K ρ hover hdist hsup hK hjust
    have hex' : a.isExists := hex.resolve_left id
    have hout : (weaken os (!p) K a).isExists := by
      unfold Node.isExists at hex'
      split at hex'
      · rw [weaken]; rfl
      · cases hex'
    rw [weaken_not, translate, translateList, translateList, countsAs_not hout,
      countsAs_not (Node.isExists_translate hex')]
    refine ih _ K ρ hover (nodup_argument hdist List.mem_cons_self) (supported_not ▸ hsup)
      (fun hcounts => hK ((countsAs_not hex').mpr hcounts)) fun col hcol hin => ?_
    rw [← notNull_not]
    exact hjust col hcol (by simpa [tables, tablesList] using hin)
  | exist hquals ih => exact sameRows_exists hI hS hquals ih

end

end Infed.Codd
