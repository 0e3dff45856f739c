import Infed.EmptySets
import Infed.Marked.Compare
import Infed.Memory
import Mathlib.Data.List.ReduceOption

/-! The hook of `certain_answer_marked.c`: the rewriting, and then `free_context_modifier` and
`free_context_walker_set_constraint`.  An empty list is NULL, so that an AND/OR node for which
`my_walker` records an empty set leaves a NULL in `list_list_true` or `list_list_false`, and
`list_free_deep` hands it to `pfree`. -/

namespace Infed.Marked

open CellList Memory

variable {cat : Catalog}

/-! ### The hook -/

/-- The lists that the hook releases with their elements. -/
inductive Owner where
  | constraintToAdd
  | listOfNotNullInCurrent
  | trueVars
  | listListTrue
  | listListFalse
  deriving DecidableEq

/-- What the hook releases: the elements of those lists, their cells and headers, and the two
contexts. -/
inductive Chunk where
  /-- The `i`-th node of `constraint_to_add`. -/
  | check (i : Nat)
  | trueVar (v : TrueVar)
  /-- The header of the `i`-th list in `trueVars`. -/
  | scope (i : Nat)
  /-- The header of a set that `my_walker` recorded. -/
  | recorded (p : Nat)
  | cell (owner : Owner) (i : Nat)
  | header (owner : Owner)
  | contextModifier
  | contextWalkerSetConstraint
  deriving DecidableEq

def freeList (owner : Owner) (elems : List (Option Chunk)) (freed : List Chunk) :
    Option (List Chunk) :=
  listFreeDeep (.cell owner) (.header owner) elems freed

def freeContextModifier (ctx : ContextModifier Int) (freed : List Chunk) :
    Option (List Chunk) := do
  let freed ← freeList .constraintToAdd
    (ctx.constraintToAdd.mapIdx fun i _ => some (.check i)) freed
  let freed ← freeList .listOfNotNullInCurrent
    (ctx.listOfNotNullInCurrent.map fun v => some (.trueVar v)) freed
  pfree freed (some .contextModifier)

/-- Of a scope that is not NULL, the first element is NULL or the header of a list in `trueVars`,
which is released before. -/
def freeCurrentTrueVar : Scope → List Chunk → Option (List Chunk)
  | .root, freed => some freed
  | .level _ _, _ => none

def freeContextWalkerSetConstraint (ctx : ContextWalkerSetConstraint) (freed : List Chunk) :
    Option (List Chunk) := do
  let freed ← freeList .trueVars (ctx.trueVars.mapIdx fun i _ => some (.scope i)) freed
  let freed ← freeCurrentTrueVar ctx.currentTrueVar freed
  let freed ← freeList .listListTrue (ctx.listListTrue.map (·.map .recorded)) freed
  let freed ← freeList .listListFalse (ctx.listListFalse.map (·.map .recorded)) freed
  pfree freed (some .contextWalkerSetConstraint)

def myPostParseAnalyseHook (cat : Catalog) (query : Node Int) : Option (Node Int) := do
  let ctx ← myWalker cat query makeContextWalkerSetConstraint
  let ctxM ← makeContextModifier true ctx
  let (query, ctxM) ← myMutator query ctxM
  let freed ← freeContextModifier ctxM []
  let _ ← freeContextWalkerSetConstraint ctx freed
  some query

/-! ### What the walker allocates -/

/-- The recorded sets have headers of their own, and so has each column declared NOT NULL its
node. -/
structure Allocates (c : ContextWalkerSetConstraint) : Prop where
  recorded : (c.listListTrue.reduceOption ++ c.listListFalse.reduceOption).Nodup
  allocated : ∀ p ∈ c.listListTrue.reduceOption ++ c.listListFalse.reduceOption,
    p < c.heap.lists.length
  schema : c.listOfNotNullAttSchem.Nodup
  met : ∀ v ∈ c.listOfNotNullAttSchem, v.rte < c.rtes

theorem length_listConcat {h h' : Heap TrueVar} {l m r : ListPtr}
    (hrun : h.listConcat l m = some (h', r)) : h'.lists.length = h.lists.length := by
  unfold Heap.listConcat at hrun
  split at hrun
  · cases hrun
    rfl
  · cases hrun
    rfl
  · split at hrun
    · cases hrun
    · simp only [Option.bind_eq_bind, Option.bind_eq_some_iff] at hrun
      obtain ⟨_, _, _, _, _, _, hrun⟩ := hrun
      cases hrun
      exact List.length_set

theorem length_lappend {h h' : Heap TrueVar} {l r : ListPtr} {v : TrueVar}
    (hrun : h.lappend l v = some (h', r)) : h.lists.length ≤ h'.lists.length := by
  unfold Heap.lappend at hrun
  split at hrun
  · cases hrun
    simp
  · simp only [Option.bind_eq_bind, Option.bind_eq_some_iff] at hrun
    obtain ⟨_, _, _, _, hrun⟩ := hrun
    cases hrun
    simp

/-- A list that is built from NULL has a new header. -/
theorem header_lappendAll {h h' : Heap TrueVar} {r : ListPtr} {vs : List TrueVar}
    (hrun : h.lappendAll none vs = some (h', r)) :
    h.lists.length ≤ h'.lists.length ∧
      ∀ p, r = some p → h.lists.length ≤ p ∧ p < h'.lists.length := by
  obtain ⟨h1, r1, as, hrun1, hholds, _, _, hnew, hframe⟩ := Heap.lappendAll_spec (h := h) vs
  obtain ⟨rfl, rfl⟩ := Prod.mk.inj (Option.some.inj (hrun.symm.trans hrun1))
  exact ⟨hframe.lists_le, fun p hp => ⟨hnew p hp, (hp ▸ hholds).ptr_lt⟩⟩

theorem nodup_record {xs ys : List ListPtr} {t f : ListPtr} {n n1 n2 : Nat}
    (hnodup : (xs.reduceOption ++ ys.reduceOption).Nodup)
    (hlt : ∀ p ∈ xs.reduceOption ++ ys.reduceOption, p < n)
    (ht : ∀ p, t = some p → n ≤ p ∧ p < n1) (hf : ∀ p, f = some p → n1 ≤ p ∧ p < n2)
    (h1 : n ≤ n1) (h2 : n1 ≤ n2) :
    ((xs ++ [t]).reduceOption ++ (ys ++ [f]).reduceOption).Nodup ∧
      ∀ p ∈ (xs ++ [t]).reduceOption ++ (ys ++ [f]).reduceOption, p < n2 := by
  rw [List.reduceOption_append, List.reduceOption_append, List.reduceOption_singleton,
    List.reduceOption_singleton]
  rw [List.forall_mem_append] at hlt
  rw [List.nodup_append] at hnodup
  obtain ⟨hxs, hys, hdisj⟩ := hnodup
  constructor
  · cases t <;> cases f <;> simp_all [List.nodup_append] <;> grind
  · cases t <;> cases f <;> simp_all <;> grind

/-- What a step keeps that records nothing and meets no FROM entry. -/
theorem Allocates.of_same {c c' : ContextWalkerSetConstraint} (h : Allocates c)
    (htrue : c'.listListTrue = c.listListTrue) (hfalse : c'.listListFalse = c.listListFalse)
    (hschema : c'.listOfNotNullAttSchem = c.listOfNotNullAttSchem) (hrtes : c'.rtes = c.rtes)
    (hle : c.heap.lists.length ≤ c'.heap.lists.length) : Allocates c' := by
  refine ⟨?_, ?_, hschema ▸ h.schema, ?_⟩
  · rw [htrue, hfalse]
    exact h.recorded
  · rw [htrue, hfalse]
    exact fun p hp => (h.allocated p hp).trans_le hle
  · rw [hschema, hrtes]
    exact h.met

theorem Allocates.closeBoolExpr {c c' : ContextWalkerSetConstraint} {isAnd : Bool} {n : Nat}
    {l m : ListPtr} (h : Allocates c) (hclose : c.closeBoolExpr isAnd n l m = some c') :
    Allocates c' := by
  simp only [ContextWalkerSetConstraint.closeBoolExpr, Option.bind_eq_bind,
    Option.bind_eq_some_iff] at hclose
  obtain ⟨_, _, ⟨h1, t⟩, htrue, _, _, ⟨h2, f⟩, hfalse, ⟨h3, _⟩, hconcat, ⟨h4, _⟩, hconcat', hc'⟩ :=
    hclose
  cases hc'
  obtain ⟨hle1, hnewt⟩ := header_lappendAll htrue
  obtain ⟨hle2, hnewf⟩ := header_lappendAll hfalse
  have hrecord := nodup_record h.recorded h.allocated hnewt hnewf hle1 hle2
  refine ⟨hrecord.1, fun p hp => ?_, h.schema, h.met⟩
  rw [length_listConcat hconcat', length_listConcat hconcat]
  exact hrecord.2 p hp

theorem Allocates.addRelation {c : ContextWalkerSetConstraint} (h : Allocates c) (relid : Oid) :
    Allocates (c.addRelation cat relid) := by
  have hrelation : (relationVars cat c.rtes relid).Nodup :=
    List.nodup_range.map fun i j hij => by simpa using hij
  have hrte : ∀ v ∈ relationVars cat c.rtes relid, v.rte = c.rtes := by
    intro v hv
    obtain ⟨i, _, rfl⟩ := List.mem_map.mp hv
    rfl
  refine ⟨h.recorded, h.allocated, ?_, ?_⟩
  · refine List.nodup_append.mpr ⟨h.schema, hrelation.filter _, fun v hv w hw heq => ?_⟩
    have hold := h.met v hv
    have hnew := hrte w (List.mem_of_mem_filter hw)
    rw [heq, hnew] at hold
    exact Nat.lt_irrefl _ hold
  · refine List.forall_mem_append.mpr ⟨fun v hv => Nat.lt_succ_of_lt (h.met v hv), fun v hv => ?_⟩
    rw [hrte v (List.mem_of_mem_filter hv)]
    exact Nat.lt_succ_self _

theorem allocates_keeps : pass.WalkerKeeps cat Allocates where
  openBoolExpr c h := h.of_same rfl rfl rfl rfl le_rfl
  closeNot c c' l m h hclose := by
    simp only [ContextWalkerSetConstraint.closeNot, Option.bind_eq_bind,
      Option.bind_eq_some_iff] at hclose
    obtain ⟨⟨h1, _⟩, hconcat, ⟨h2, _⟩, hconcat', hc'⟩ := hclose
    cases hc'
    refine h.of_same rfl rfl rfl rfl ?_
    rw [length_listConcat hconcat', length_listConcat hconcat]
  closeBoolExpr c c' isAnd n l m h hclose := h.closeBoolExpr hclose
  addVar c c' v h hadd := by
    simp only [ContextWalkerSetConstraint.addVar, Option.bind_eq_bind,
      Option.bind_eq_some_iff] at hadd
    obtain ⟨_, _, _, _, hadd⟩ := hadd
    split at hadd
    · cases hadd
      exact h
    · obtain ⟨⟨h1, _⟩, happend, hc'⟩ := Option.bind_eq_some_iff.mp hadd
      cases hc'
      exact h.of_same rfl rfl rfl rfl (length_lappend happend)
  openOpExpr c opno h := by
    unfold Pass.openOpExpr
    split
    · exact h.of_same rfl rfl rfl rfl le_rfl
    · exact h
  closeOpExpr c c' h hclose := by
    obtain ⟨⟨h1, _⟩, hconcat, hc'⟩ := Option.bind_eq_some_iff.mp hclose
    cases hc'
    exact h.of_same rfl rfl rfl rfl (length_listConcat hconcat).ge
  scope c currentTrueVar h := h.of_same rfl rfl rfl rfl le_rfl
  query c h := h.of_same rfl rfl rfl rfl le_rfl
  addRelation c relid h := h.addRelation relid

theorem allocates_make : Allocates makeContextWalkerSetConstraint :=
  ⟨List.nodup_nil, by simp [makeContextWalkerSetConstraint], List.nodup_nil,
    by simp [makeContextWalkerSetConstraint]⟩

/-! ### Releasing it -/

/-- The list of which a chunk is a cell or the header. -/
def Chunk.owner : Chunk → Option Owner
  | cell owner _ => some owner
  | header owner => some owner
  | _ => none

theorem freeList_returns (owner : Owner) {chunks freed : List Chunk} (hnodup : chunks.Nodup)
    (helem : ∀ k ∈ chunks, k.owner = none) (hfresh : ∀ k ∈ chunks, k ∉ freed)
    (hown : ∀ k ∈ freed, k.owner ≠ some owner) :
    ∃ freed', freeList owner (chunks.map some) freed = some freed' ∧
      ∀ k ∈ freed', k ∈ freed ∨ k ∈ chunks ∨ k.owner = some owner := by
  have hreleasable : Releasable (.cell owner) (.header owner) chunks freed := by
    refine ⟨hnodup, fun i j h => by simpa using h, fun k hk i h => ?_, fun k hk h => ?_,
      fun i h => (by cases h), hfresh, fun i h => hown _ h rfl, fun h => hown _ h rfl⟩
    · cases h ▸ helem k hk
    · cases h ▸ helem k hk
  obtain ⟨freed', hrun, hfreed'⟩ := hreleasable.returns
  refine ⟨freed', hrun, fun k hk => ?_⟩
  rcases hfreed' k hk with hk | hk | ⟨i, rfl⟩ | rfl
  · exact .inl hk
  · exact .inr (.inl hk)
  · exact .inr (.inr rfl)
  · exact .inr (.inr rfl)

/-- The place of a list in the order in which the hook releases. -/
def Owner.stage : Owner → Nat
  | constraintToAdd => 0
  | listOfNotNullInCurrent => 1
  | trueVars => 3
  | listListTrue => 4
  | listListFalse => 5

/-- The place of a chunk; a recorded set is released with one of the last two lists. -/
def Chunk.stage : Chunk → Nat
  | check _ => 0
  | trueVar _ => 1
  | contextModifier => 2
  | scope _ => 3
  | recorded _ => 4
  | cell owner _ => owner.stage
  | header owner => owner.stage
  | contextWalkerSetConstraint => 6

theorem Chunk.stage_of_owner {k : Chunk} {owner : Owner} (h : k.owner = some owner) :
    k.stage = owner.stage := by
  cases k <;> simp_all [Chunk.owner, Chunk.stage]

/-- A list is released whose elements have their place with it, after those with an earlier one. -/
theorem freeList_stage (owner : Owner) {chunks freed : List Chunk} (hnodup : chunks.Nodup)
    (helem : ∀ k ∈ chunks, k.owner = none ∧ k.stage = owner.stage)
    (hfreed : ∀ k ∈ freed, k.stage < owner.stage) :
    ∃ freed', freeList owner (chunks.map some) freed = some freed' ∧
      (∀ k ∈ freed', k.stage ≤ owner.stage) ∧
      ∀ k ∈ freed', k ∈ freed ∨ k ∈ chunks ∨ k.owner = some owner := by
  obtain ⟨freed', hrun, hfreed'⟩ := freeList_returns owner hnodup (fun k hk => (helem k hk).1)
    (fun k hk hmem => by
      have := hfreed k hmem
      have := (helem k hk).2
      omega)
    (fun k hmem howner => by
      have := hfreed k hmem
      have := Chunk.stage_of_owner howner
      omega)
  refine ⟨freed', hrun, fun k hk => ?_, hfreed'⟩
  rcases hfreed' k hk with hk | hk | hk
  · exact (hfreed k hk).le
  · exact (helem k hk).2.le
  · exact (Chunk.stage_of_owner hk).le

theorem pfree_stage {k : Chunk} {freed : List Chunk} (hfreed : ∀ k' ∈ freed, k'.stage < k.stage) :
    pfree freed (some k) = some (k :: freed) :=
  pfree_some fun hmem => Nat.lt_irrefl _ (hfreed k hmem)

theorem mapIdx_some {β : Type} (xs : List β) (f : Nat → Chunk) :
    (xs.mapIdx fun i _ => some (f i)) = ((List.range xs.length).map f).map some := by
  rw [List.mapIdx_eq_zipIdx_map, List.map_map, List.range_eq_range', ← List.zipIdx_map_snd 0,
    List.map_map]
  rfl

theorem freeContextModifier_returns {c : ContextModifier Int}
    (hnodup : c.listOfNotNullInCurrent.Nodup) :
    ∃ freed, freeContextModifier c [] = some freed ∧ ∀ k ∈ freed, k.stage ≤ 2 := by
  have hvars : (c.listOfNotNullInCurrent.map fun v => some (Chunk.trueVar v)) =
      (c.listOfNotNullInCurrent.map Chunk.trueVar).map some := by
    rw [List.map_map]
    rfl
  have hchecksNodup : ((List.range c.constraintToAdd.length).map Chunk.check).Nodup :=
    List.nodup_range.map fun i j h => by simpa using h
  have hvarsNodup : (c.listOfNotNullInCurrent.map Chunk.trueVar).Nodup :=
    hnodup.map fun v w h => by simpa using h
  obtain ⟨freed1, hrun1, hfreed1, _⟩ := freeList_stage .constraintToAdd hchecksNodup
    (List.forall_mem_map.mpr fun _ _ => ⟨rfl, rfl⟩) (List.forall_mem_nil _)
  obtain ⟨freed2, hrun2, hfreed2, _⟩ := freeList_stage .listOfNotNullInCurrent hvarsNodup
    (List.forall_mem_map.mpr fun _ _ => ⟨rfl, rfl⟩) fun k hk => Nat.lt_succ_of_le (hfreed1 k hk)
  refine ⟨.contextModifier :: freed2, ?_, ?_⟩
  · rw [freeContextModifier, mapIdx_some, hvars, hrun1]
    simp only [Option.bind_eq_bind, Option.bind_some, hrun2]
    exact pfree_stage fun k hk => Nat.lt_succ_of_le (hfreed2 k hk)
  · exact List.forall_mem_cons.mpr ⟨le_rfl, fun k hk => Nat.le_succ_of_le (hfreed2 k hk)⟩

theorem eq_map_some {l : List ListPtr} (h : none ∉ l) : l = l.reduceOption.map some := by
  induction l with
  | nil => rfl
  | cons p l ih =>
    rw [List.mem_cons, not_or] at h
    cases p with
    | none => exact absurd rfl h.1
    | some p => rw [List.reduceOption_cons_of_some, List.map_cons, ← ih h.2]

theorem recorded_eq_map_some {l : List ListPtr} (h : none ∉ l) :
    l.map (·.map Chunk.recorded) = (l.reduceOption.map Chunk.recorded).map some := by
  conv_lhs => rw [eq_map_some h]
  rw [List.map_map, List.map_map]
  rfl

theorem none_mem_recorded {l : List ListPtr} (h : none ∈ l) :
    none ∈ l.map (·.map Chunk.recorded) :=
  List.mem_map.mpr ⟨none, h, rfl⟩

/-- After `free_context_modifier`, the walker's context is released if no recorded set is NULL. -/
theorem freeContextWalkerSetConstraint_returns {w : ContextWalkerSetConstraint} (hw : Allocates w)
    (hroot : w.currentTrueVar = .root) {freed : List Chunk} (hfreed : ∀ k ∈ freed, k.stage ≤ 2)
    (htrue : none ∉ w.listListTrue) (hfalse : none ∉ w.listListFalse) :
    ∃ freed', freeContextWalkerSetConstraint w freed = some freed' := by
  have hscopesNodup : ((List.range w.trueVars.length).map Chunk.scope).Nodup :=
    List.nodup_range.map fun i j h => by simpa using h
  obtain ⟨hnodupT, hnodupF, hdisj⟩ := List.nodup_append.mp hw.recorded
  have hinjective : Function.Injective Chunk.recorded := fun p q h => by simpa using h
  obtain ⟨freed1, hrun1, hfreed1, _⟩ := freeList_stage .trueVars hscopesNodup
    (List.forall_mem_map.mpr fun _ _ => ⟨rfl, rfl⟩) fun k hk => Nat.lt_succ_of_le (hfreed k hk)
  obtain ⟨freed2, hrun2, hfreed2, hmem2⟩ := freeList_stage .listListTrue
    (hnodupT.map hinjective) (List.forall_mem_map.mpr fun _ _ => ⟨rfl, rfl⟩)
    fun k hk => Nat.lt_succ_of_le (hfreed1 k hk)
  -- a header in both lists would be released twice
  have hfresh : ∀ k ∈ w.listListFalse.reduceOption.map Chunk.recorded, k ∉ freed2 := by
    refine List.forall_mem_map.mpr fun p hp hmem => ?_
    rcases hmem2 _ hmem with hmem | hmem | hmem
    · have := hfreed1 _ hmem
      simp [Chunk.stage, Owner.stage] at this
    · obtain ⟨q, hq, heq⟩ := List.mem_map.mp hmem
      exact hdisj q hq p hp (hinjective heq)
    · cases hmem
  have hown : ∀ k ∈ freed2, k.owner ≠ some .listListFalse := fun k hk howner => by
    have := hfreed2 k hk
    rw [Chunk.stage_of_owner howner] at this
    simp [Owner.stage] at this
  obtain ⟨freed3, hrun3, hfreed3⟩ := freeList_returns .listListFalse (hnodupF.map hinjective)
    (List.forall_mem_map.mpr fun _ _ => rfl) hfresh hown
  have hlast : ∀ k ∈ freed3, k.stage < Chunk.contextWalkerSetConstraint.stage := by
    intro k hk
    rcases hfreed3 k hk with hk | hk | hk
    · exact (hfreed2 k hk).trans_lt (by decide)
    · obtain ⟨p, _, rfl⟩ := List.mem_map.mp hk
      simp [Chunk.stage]
    · rw [Chunk.stage_of_owner hk]
      decide
  refine ⟨.contextWalkerSetConstraint :: freed3, ?_⟩
  rw [freeContextWalkerSetConstraint, mapIdx_some, hrun1, hroot, recorded_eq_map_some htrue,
    recorded_eq_map_some hfalse]
  simp only [freeCurrentTrueVar, Option.bind_eq_bind, Option.bind_some, hrun2, hrun3]
  exact pfree_stage hlast

theorem freeContextWalkerSetConstraint_null {w : ContextWalkerSetConstraint} {freed : List Chunk}
    (h : none ∈ w.listListTrue ∨ none ∈ w.listListFalse) :
    freeContextWalkerSetConstraint w freed = none := by
  simp only [freeContextWalkerSetConstraint, Option.bind_eq_bind, Option.bind_eq_none_iff]
  intro freed1 _ freed2 _ freed3 htrue
  rcases h with h | h
  · rw [freeList, listFreeDeep_null (none_mem_recorded h)] at htrue
    cases htrue
  · intro freed4 hfalse
    rw [freeList, listFreeDeep_null (none_mem_recorded h)] at hfalse
    cases hfalse

/-! ### When the hook returns -/

theorem currentTrueVar_of_query {targetList rtable : List (Node Int)} {fromlist : List Nat}
    {quals : Node Int} {c w : ContextWalkerSetConstraint}
    (hw : myWalker cat (.query targetList rtable fromlist quals) c = some w) :
    w.currentTrueVar = c.currentTrueVar := by
  rw [myWalker, Pass.myWalker] at hw
  obtain ⟨_, _, hw⟩ := Option.bind_eq_some_iff.mp hw
  obtain ⟨_, _, hw⟩ := Option.bind_eq_some_iff.mp hw
  cases hw
  rfl

/-- After a walk and a rewriting that return, the hook returns if no recorded set is empty. -/
theorem hook_eq {targetList rtable : List (Node Int)} {fromlist : List Nat} {quals q' : Node Int}
    {w : ContextWalkerSetConstraint} {c c' : ContextModifier Int}
    (hw : myWalker cat (.query targetList rtable fromlist quals) makeContextWalkerSetConstraint =
      some w) (hc : makeContextModifier true w = some c)
    (hrun : myMutator (.query targetList rtable fromlist quals) c = some (q', c')) :
    myPostParseAnalyseHook cat (.query targetList rtable fromlist quals) =
      if none ∈ w.listListTrue ∨ none ∈ w.listListFalse then none else some q' := by
  have hallocates := allocates_keeps.myWalker _ _ w allocates_make hw
  have hroot : w.currentTrueVar = .root := currentTrueVar_of_query hw
  have hknown : c'.listOfNotNullInCurrent = w.listOfNotNullAttSchem := by
    simp only [makeContextModifier, Option.bind_eq_bind, Option.bind_eq_some_iff] at hc
    obtain ⟨_, _, _, _, _, _, hc⟩ := hc
    cases hc
    exact (pass.frames _ _ _ _ hrun).known
  obtain ⟨freed, hmodifier, hfreed⟩ :=
    freeContextModifier_returns (hknown ▸ hallocates.schema)
  simp only [myPostParseAnalyseHook, hw, hc, hrun, hmodifier, Option.bind_eq_bind,
    Option.bind_some]
  split
  · next hnull =>
    rw [freeContextWalkerSetConstraint_null hnull]
    rfl
  · next hnull =>
    rw [not_or] at hnull
    obtain ⟨_, hwalker⟩ :=
      freeContextWalkerSetConstraint_returns hallocates hroot hfreed hnull.1 hnull.2
    rw [hwalker]
    rfl

/-! ### The whole hook -/

theorem eq_nil_of_mapM {h : Heap TrueVar} {ls : List ListPtr}
    (hrun : ls.mapM h.foreach = some []) : ls = [] := by
  cases ls with
  | nil => rfl
  | cons l ls =>
    simp only [List.mapM_cons, Option.bind_eq_bind, Option.bind_eq_some_iff] at hrun
    obtain ⟨_, _, _, _, hrun⟩ := hrun
    cases hrun

theorem not_recordsNull {c : ContextModifier Int} {w : ContextWalkerSetConstraint}
    (hc : makeContextModifier true w = some c) (htrue : c.listListTrue = [])
    (hfalse : c.listListFalse = []) : ¬RecordsNull w := by
  simp only [makeContextModifier, Option.bind_eq_bind, Option.bind_eq_some_iff] at hc
  obtain ⟨_, _, _, hsetsT, _, hsetsF, hc⟩ := hc
  cases hc
  cases htrue
  cases hfalse
  rw [RecordsNull, eq_nil_of_mapM hsetsT, eq_nil_of_mapM hsetsF]
  simp

/-- Without AND and OR no set is recorded, and the hook returns. -/
theorem hook_of_boolCount {targetList : List (Node Int)} {relids : List Oid} {quals q' : Node Int}
    {w : ContextWalkerSetConstraint} {c c' : ContextModifier Int}
    (hw : myWalker cat (selectFrom targetList relids quals) makeContextWalkerSetConstraint = some w)
    (hc : makeContextModifier true w = some c)
    (hrun : myMutator (selectFrom targetList relids quals) c = some (q', c'))
    (hprepared : Prepared cat (selectFrom targetList relids quals) true c)
    (hcount : boolCount quals = 0) :
    myPostParseAnalyseHook cat (selectFrom targetList relids quals) = some q' := by
  have htrue := hprepared.fresh.lengthTrue
  have hfalse := hprepared.fresh.lengthFalse
  rw [boolCount_selectFrom, hcount, List.length_eq_zero_iff] at htrue hfalse
  exact (hook_eq hw hc hrun).trans (if_neg (not_recordsNull hc htrue hfalse))

/-- The hook walks and rewrites every query with integer comparisons, and then it returns if and
only if there is no AND or OR in the query.  Otherwise `my_walker` has recorded a set that is NULL,
and releasing it never returns. -/
theorem hook_returns_iff (cat : Catalog) {freeNot : Prop} (targetList : List (Node Int))
    (relids : List Oid) (quals : Node Int) (h : Cond (IntComparison cat) freeNot [relids] quals) :
    ∃ w c q' c',
      myWalker cat (selectFrom targetList relids quals) makeContextWalkerSetConstraint = some w ∧
      makeContextModifier true w = some c ∧
      myMutator (selectFrom targetList relids quals) c = some (q', c') ∧
      myPostParseAnalyseHook cat (selectFrom targetList relids quals) =
        if boolCount quals = 0 then some q' else none := by
  have hatoms := h.mono (fun _ _ ha => ha.atom) id
  obtain ⟨w, hw, hmake⟩ := pass.prepares targetList hatoms
  obtain ⟨c, hc, hprepared⟩ := hmake true
  obtain ⟨⟨q', c', hrun⟩, _⟩ := fresh_returns (fun _ _ => id) h hprepared.fresh
  refine ⟨w, c, q', c', hw, hc, hrun, ?_⟩
  by_cases hcount : boolCount quals = 0
  · exact (hook_of_boolCount hw hc hrun hprepared hcount).trans (if_pos hcount).symm
  · have hnull : RecordsNull w :=
      myWalker_selectFrom_recordsNull (myWalker_recordsNull hatoms hcount) hw
    exact (hook_eq hw hc hrun).trans ((if_pos hnull).trans (if_neg hcount).symm)

/-- `r.a <> 3`. -/
def unlikeThree : Node Int :=
  .opExpr 518 [.var ⟨1, 1, 0⟩, .const (some 3)]

theorem unlikeThree_intCond : Cond (IntComparison (Catalog.nullable 1)) False [[1]] unlikeThree :=
  .leaf (.mk (by decide) (.column ⟨1, rfl, by decide, by decide⟩) .constant)

/-- The hook returns on a comparison, and not on a conjunction of it with itself. -/
theorem hook_returns_iff_unlikeThree :
    (myPostParseAnalyseHook (Catalog.nullable 1) (selectFrom [] [1] unlikeThree)).isSome ∧
      myPostParseAnalyseHook (Catalog.nullable 1)
        (selectFrom [] [1] (.boolExpr .andExpr [unlikeThree, unlikeThree])) = none := by
  have hboth : Cond (IntComparison (Catalog.nullable 1)) False [[1]]
      (.boolExpr .andExpr [unlikeThree, unlikeThree]) :=
    .and (by simp) (List.forall_mem_cons.mpr
      ⟨unlikeThree_intCond, List.forall_mem_singleton.mpr unlikeThree_intCond⟩)
  obtain ⟨_, _, q', _, _, _, _, hone⟩ :=
    hook_returns_iff (Catalog.nullable 1) [] [1] unlikeThree unlikeThree_intCond
  obtain ⟨_, _, _, _, _, _, _, htwo⟩ := hook_returns_iff (Catalog.nullable 1) [] [1] _ hboth
  exact ⟨Option.isSome_iff_exists.mpr ⟨q', hone⟩, htwo⟩

end Infed.Marked
