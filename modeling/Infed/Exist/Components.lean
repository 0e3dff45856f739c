import Infed.Connected
import Infed.Exist.Pass
import Mathlib.Data.Option.Basic

/-! What `create_connexe` computes.  The components and the tables that an enclosing query restricts
are a partition of the FROM entries, comparisons only make it coarser, and a comparison leaves its
two tables in one component, or both restricted by the enclosing query. -/

namespace Infed.Exist

variable {α : Type} {n : Nat}

/-! ### Lists of disjoint lists -/

/-- Of disjoint lists, the one that contains `v` is found, and the others are those without it. -/
theorem perm_component {L : List (List Nat)} (h : L.flatten.Nodup) {v : Nat} (hv : v ∈ L.flatten) :
    ∃ c, L.find? (·.contains v) = some c ∧ v ∈ c ∧ L.Perm (c :: L.filter (!·.contains v)) := by
  induction L with
  | nil => simp at hv
  | cons x L ih =>
    rw [List.flatten_cons, List.nodup_append] at h
    by_cases hx : v ∈ x
    · refine ⟨x, by simp [hx], hx, ?_⟩
      have hrest : L.filter (!·.contains v) = L := by
        refine List.filter_eq_self.mpr fun c hc => ?_
        have hvc : v ∉ c := fun hvc => h.2.2 v hx v (List.mem_flatten.mpr ⟨c, hc, hvc⟩) rfl
        simpa using hvc
      rw [List.filter_cons_of_neg (by simpa using hx), hrest]
    · have hvL : v ∈ L.flatten := by simpa [hx] using hv
      obtain ⟨c, hfind, hvc, hperm⟩ := ih h.2.1 hvL
      refine ⟨c, by simpa [hx] using hfind, hvc, ?_⟩
      have hkeep : (x :: L).filter (!·.contains v) = x :: L.filter (!·.contains v) := by simp [hx]
      rw [hkeep]
      exact (hperm.cons x).trans (.swap c x _)

theorem eq_map_flatten {L : List (List Nat)} (h : ∀ c ∈ L, c.length = 1) :
    L = L.flatten.map ([·]) := by
  induction L with
  | nil => rfl
  | cons c L ih =>
    rw [List.forall_mem_cons] at h
    obtain ⟨k, rfl⟩ := List.length_eq_one_iff.mp h.1
    rw [List.flatten_cons, List.map_append, ← ih h.2]
    rfl

/-! ### The partition -/

/-- The tables restricted by an enclosing query and the components are a partition of the `n` FROM
entries. -/
def Partitions (n : Nat) (ctx : ContextExists) : Prop :=
  (ctx.composanteConnexeSubLevel ++ ctx.listComposantesConnexes.flatten).Perm (List.range' 1 n)

theorem Partitions.nodup {ctx : ContextExists} (h : Partitions n ctx) :
    (ctx.composanteConnexeSubLevel ++ ctx.listComposantesConnexes.flatten).Nodup :=
  h.nodup_iff.mpr List.nodup_range'

theorem Partitions.components {ctx : ContextExists} (h : Partitions n ctx) :
    ctx.listComposantesConnexes.flatten.Nodup := (List.nodup_append.mp h.nodup).2.1

theorem Partitions.mem_flatten {ctx : ContextExists} (h : Partitions n ctx) {v : Nat} (h1 : 1 ≤ v)
    (hn : v ≤ n) (hsub : ctx.isSub v = false) : v ∈ ctx.listComposantesConnexes.flatten := by
  have hmem : v ∈ ctx.composanteConnexeSubLevel ++ ctx.listComposantesConnexes.flatten :=
    h.mem_iff.mpr (List.mem_range'_1.mpr ⟨h1, by omega⟩)
  refine (List.mem_append.mp hmem).resolve_left fun hv => ?_
  simp [ContextExists.isSub, hv] at hsub

theorem partitions_make (n : Nat) : Partitions n (makeContextExists n) := by
  have hflatten : ((List.range' 1 n).map ([·])).flatten = List.range' 1 n := by
    rw [← List.flatMap_def, List.flatMap_singleton']
  simp [Partitions, makeContextExists, hflatten]

/-- The partition of `ctx'` is coarser than the one of `ctx`. -/
structure Coarsens (ctx ctx' : ContextExists) : Prop where
  subLevel : ∀ v ∈ ctx.composanteConnexeSubLevel, v ∈ ctx'.composanteConnexeSubLevel
  components : ∀ c ∈ ctx.listComposantesConnexes,
    (∀ v ∈ c, v ∈ ctx'.composanteConnexeSubLevel) ∨
      ∃ c' ∈ ctx'.listComposantesConnexes, ∀ v ∈ c, v ∈ c'

theorem Coarsens.refl (ctx : ContextExists) : Coarsens ctx ctx :=
  ⟨fun _ hv => hv, fun c hc => .inr ⟨c, hc, fun _ hv => hv⟩⟩

theorem Coarsens.trans {ctx1 ctx2 ctx3 : ContextExists} (h1 : Coarsens ctx1 ctx2)
    (h2 : Coarsens ctx2 ctx3) : Coarsens ctx1 ctx3 := by
  refine ⟨fun v hv => h2.subLevel v (h1.subLevel v hv), fun c hc => ?_⟩
  rcases h1.components c hc with hsub | ⟨c', hc', hcc'⟩
  · exact .inl fun v hv => h2.subLevel v (hsub v hv)
  · rcases h2.components c' hc' with hsub | ⟨c'', hc'', hcc''⟩
    · exact .inl fun v hv => hsub v (hcc' v hv)
    · exact .inr ⟨c'', hc'', fun v hv => hcc'' v (hcc' v hv)⟩

/-- Two tables in one part of the partition. -/
def Together (ctx : ContextExists) (i j : Nat) : Prop :=
  (i ∈ ctx.composanteConnexeSubLevel ∧ j ∈ ctx.composanteConnexeSubLevel) ∨
    ∃ c ∈ ctx.listComposantesConnexes, i ∈ c ∧ j ∈ c

theorem Together.symm {ctx : ContextExists} {i j : Nat} (h : Together ctx i j) : Together ctx j i :=
  h.imp And.symm fun ⟨c, hc, hi, hj⟩ => ⟨c, hc, hj, hi⟩

theorem Together.mono {ctx ctx' : ContextExists} (hle : Coarsens ctx ctx') {i j : Nat}
    (h : Together ctx i j) : Together ctx' i j := by
  rcases h with ⟨hi, hj⟩ | ⟨c, hc, hi, hj⟩
  · exact .inl ⟨hle.subLevel i hi, hle.subLevel j hj⟩
  · rcases hle.components c hc with hsub | ⟨c', hc', hcc'⟩
    · exact .inl ⟨hsub i hi, hsub j hj⟩
    · exact .inr ⟨c', hc', hcc' i hi, hcc' j hj⟩

/-! ### The blocks -/

/-- The parts of the partition, with the enclosing queries as `none` among what they restrict. -/
def ContextExists.blocks (ctx : ContextExists) : List (List (Option Nat)) :=
  (none :: ctx.composanteConnexeSubLevel.map some) :: ctx.listComposantesConnexes.map (·.map some)

theorem partitions_iff {ctx : ContextExists} :
    Partitions n ctx ↔ ctx.blocks.flatten.Perm (none :: (List.range' 1 n).map some) := by
  have hflatten : ctx.blocks.flatten = none ::
      (ctx.composanteConnexeSubLevel ++ ctx.listComposantesConnexes.flatten).map some := by
    simp [ContextExists.blocks, List.map_flatten]
  rw [hflatten, List.perm_cons, List.map_perm_map_iff (Option.some_injective Nat), Partitions]

theorem Partitions.blocks {ctx : ContextExists} (h : Partitions n ctx) :
    ctx.blocks.flatten.Nodup := by
  refine (partitions_iff.mp h).nodup_iff.mpr (List.nodup_cons.mpr ⟨by simp, ?_⟩)
  exact (List.nodup_map_iff (Option.some_injective Nat)).mpr List.nodup_range'

theorem together_iff {ctx : ContextExists} {i j : Nat} :
    Together ctx i j ↔ InOne ctx.blocks (some i) (some j) := by
  simp [Together, InOne, ContextExists.blocks]

theorem mem_subLevel_iff {ctx : ContextExists} {i : Nat} :
    i ∈ ctx.composanteConnexeSubLevel ↔ InOne ctx.blocks (some i) none := by
  simp [InOne, ContextExists.blocks]

/-- Merging two blocks makes the partition coarser. -/
theorem coarsens_of_merges {ctx ctx' : ContextExists} {p q : Option Nat}
    (h : Merges ctx.blocks p q ctx'.blocks) : Coarsens ctx ctx' := by
  have hcases : ∀ b ∈ ctx.blocks, (∀ i, some i ∈ b → i ∈ ctx'.composanteConnexeSubLevel) ∨
      none ∉ b ∧ ∃ c ∈ ctx'.listComposantesConnexes, ∀ i, some i ∈ b → i ∈ c := by
    intro b hb
    obtain ⟨b', hb', hsub⟩ := h.subset hb
    rcases List.mem_cons.mp hb' with rfl | hb'
    · exact .inl fun i hi => by simpa using hsub hi
    · obtain ⟨c, hc, rfl⟩ := List.mem_map.mp hb'
      exact .inr ⟨fun hnone => by simpa using hsub hnone, c, hc, fun i hi => by simpa using hsub hi⟩
  constructor
  · intro i hi
    rcases hcases _ List.mem_cons_self with hsub | ⟨hnone, _⟩
    · exact hsub i (by simpa using hi)
    · exact absurd List.mem_cons_self hnone
  · intro c hc
    rcases hcases (c.map some) (List.mem_cons_of_mem _ (List.mem_map_of_mem hc)) with
      hsub | ⟨_, c', hc', hcc'⟩
    · exact .inl fun i hi => hsub i (List.mem_map_of_mem hi)
    · exact .inr ⟨c', hc', fun i hi => hcc' i (List.mem_map_of_mem hi)⟩

/-! ### One step -/

theorem returnList_eq {ctx : ContextExists} {v : Nat} {c : List Nat}
    (h : ctx.listComposantesConnexes.find? (·.contains v) = some c) : ctx.returnList v = c := by
  simp only [ContextExists.returnList, h]

/-- A component moves to those that an enclosing query restricts. -/
theorem Partitions.toSubLevel {ctx : ContextExists} (h : Partitions n ctx) {v : Nat}
    (hv : v ∈ ctx.listComposantesConnexes.flatten) {p : Option Nat}
    (hp : p ∈ none :: ctx.composanteConnexeSubLevel.map some) :
    Merges ctx.blocks p (some v) (ctx.toSubLevel v).blocks := by
  obtain ⟨c, hfind, hvc, hperm⟩ := perm_component h.components hv
  refine .merge ((hperm.map _).cons _) (.inl ⟨hp, List.mem_map_of_mem hvc⟩) (.of_eq ?_)
  simp only [ContextExists.toSubLevel, ContextExists.removeFromList, returnList_eq hfind,
    ContextExists.blocks, List.map_append, List.cons_append]

/-- Two components become one. -/
theorem Partitions.join {ctx : ContextExists} (h : Partitions n ctx) {i j : Nat}
    (hi : i ∈ ctx.listComposantesConnexes.flatten) (hj : j ∈ ctx.listComposantesConnexes.flatten) :
    Merges ctx.blocks (some i) (some j) (ctx.join i j).blocks := by
  obtain ⟨a, hfindA, hia, hpermA⟩ := perm_component h.components hi
  obtain ⟨b, hfindB, hjb, _⟩ := perm_component h.components hj
  have ha := List.mem_of_find?_eq_some hfindA
  have hb := List.mem_of_find?_eq_some hfindB
  simp only [ContextExists.join, returnList_eq hfindA, returnList_eq hfindB]
  by_cases hab : a = b
  · subst hab
    rw [if_pos rfl]
    exact .same (together_iff.mp (.inr ⟨a, ha, hia, hjb⟩))
  · -- the list without the component of `i` still has the one of `j`
    have hnodup : (a ++ (ctx.listComposantesConnexes.filter (!·.contains i)).flatten).Nodup :=
      hpermA.flatten.nodup_iff.mp h.components
    have hb' : b ∈ ctx.listComposantesConnexes.filter (!·.contains i) :=
      (List.mem_cons.mp (hpermA.mem_iff.mp hb)).resolve_left (Ne.symm hab)
    obtain ⟨b', _, hjb', hpermB⟩ := perm_component (List.nodup_append.mp hnodup).2.1
      (List.mem_flatten.mpr ⟨b, hb', hjb⟩)
    obtain rfl : b' = b := block_unique (List.nodup_append.mp hnodup).2.1
      (hpermB.mem_iff.mpr List.mem_cons_self) hjb' hb' hjb
    rw [if_neg hab]
    have hperm := (((hpermA.trans (hpermB.cons a)).map (·.map some)).cons
      (none :: ctx.composanteConnexeSubLevel.map some)).trans
        ((List.Perm.swap _ _ _).trans ((List.Perm.swap _ _ _).cons _))
    refine .merge hperm (.inl ⟨List.mem_map_of_mem hia, List.mem_map_of_mem hjb⟩) ?_
    simp only [ContextExists.blocks, ContextExists.removeFromList, List.map_append, List.map_cons,
      List.map_nil]
    exact ((List.perm_append_singleton _ _).cons _).trans (List.Perm.swap _ _ _)

/-! ### A comparison -/

/-- A column of an enclosing query or of one of the `n` FROM entries. -/
def InFrom (n : Nat) (v : Var) : Prop := v.varlevelsup = 0 → 1 ≤ v.varno ∧ v.varno ≤ n

/-- A comparison links two FROM entries, or one with an enclosing query. -/
inductive Linking (n : Nat) : Node α → Prop where
  | mk {opno v w} : InFrom n v → InFrom n w → v.varlevelsup = 0 ∨ w.varlevelsup = 0 →
    Self.tableOf v ≠ Self.tableOf w → Linking n (.opExpr opno [.var v, .var w])

/-- The two columns are in one part of the partition, the enclosing queries being in the part of
what they restrict. -/
def Linked (ctx : ContextExists) (v w : Var) : Prop :=
  (v.varlevelsup = 0 → w.varlevelsup = 0 → Together ctx v.varno w.varno) ∧
    (v.varlevelsup = 0 → w.varlevelsup ≠ 0 → v.varno ∈ ctx.composanteConnexeSubLevel) ∧
    (w.varlevelsup = 0 → v.varlevelsup ≠ 0 → w.varno ∈ ctx.composanteConnexeSubLevel)

theorem Linked.mono {ctx ctx' : ContextExists} (hle : Coarsens ctx ctx') {v w : Var}
    (h : Linked ctx v w) : Linked ctx' v w :=
  ⟨fun hv hw => (h.1 hv hw).mono hle, fun hv hw => hle.subLevel _ (h.2.1 hv hw),
    fun hw hv => hle.subLevel _ (h.2.2 hw hv)⟩

/-- Between two comparisons. -/
structure Idle (ctx : ContextExists) : Prop where
  varnoEnCours : ctx.varnoEnCours = none
  varSub : ctx.varSub = false

theorem mem_of_isSub {ctx : ContextExists} {v : Nat} (h : ctx.isSub v = true) :
    v ∈ ctx.composanteConnexeSubLevel := by
  simpa [ContextExists.isSub] using h

/-- The FROM entry of a column, or `none` for a column of an enclosing query. -/
def place (v : Var) : Option Nat := if v.varlevelsup = 0 then some v.varno else none

/-- A column that an enclosing query restricts. -/
theorem place_mem {ctx : ContextExists} {v : Var}
    (h : (decide (v.varlevelsup > 0) || ctx.isSub v.varno) = true) :
    place v ∈ none :: ctx.composanteConnexeSubLevel.map some := by
  by_cases h0 : v.varlevelsup = 0
  · have hsub : ctx.isSub v.varno = true := by simpa [h0] using h
    simpa [place, h0] using mem_of_isSub hsub
  · simp [place, h0]

/-- The first column of a comparison is kept in mind. -/
theorem enterVar_first {ctx : ContextExists} (hidle : Idle ctx) (v : Var) :
    ctx.enterVar v = { ctx with
      varnoEnCours := some v.varno
      varSub := decide (v.varlevelsup > 0) || ctx.isSub v.varno } := by
  simp [ContextExists.enterVar, hidle.varnoEnCours, hidle.varSub]

/-- `create_connexe` on the two columns of a comparison merges the blocks that they are in. -/
theorem enterVar_merges {ctx : ContextExists} (hidle : Idle ctx) (h : Partitions n ctx) {v w : Var}
    (hv : InFrom n v) (hw : InFrom n w) :
    Merges ctx.blocks (place v) (place w) ((ctx.enterVar v).enterVar w).blocks := by
  have hfirst := enterVar_first hidle v
  generalize ctx.enterVar v = ctx1 at hfirst ⊢
  have hcours : ctx1.varnoEnCours = some v.varno := by rw [hfirst]
  have hblocks : ctx.blocks = ctx1.blocks := by rw [hfirst]; rfl
  have hvar : ctx1.varSub = (decide (v.varlevelsup > 0) || ctx1.isSub v.varno) := by
    rw [hfirst]; rfl
  have h1 : Partitions n ctx1 := by rw [hfirst]; exact h
  rw [hblocks]
  have hown : ∀ {u : Var}, InFrom n u →
      (decide (u.varlevelsup > 0) || ctx1.isSub u.varno) = false →
      place u = some u.varno ∧ u.varno ∈ ctx1.listComposantesConnexes.flatten := by
    intro u hu hnot
    obtain ⟨hlevel, hsub⟩ : u.varlevelsup = 0 ∧ ctx1.isSub u.varno = false := by simpa using hnot
    exact ⟨by simp [place, hlevel], h1.mem_flatten (hu hlevel).1 (hu hlevel).2 hsub⟩
  have hblock : none :: ctx1.composanteConnexeSubLevel.map some ∈ ctx1.blocks := List.mem_cons_self
  cases hvs : (decide (v.varlevelsup > 0) || ctx1.isSub v.varno) <;>
    cases hws : (decide (w.varlevelsup > 0) || ctx1.isSub w.varno)
  · obtain ⟨hpv, hvin⟩ := hown hv hvs
    obtain ⟨hpw, hwin⟩ := hown hw hws
    have hjoin : ctx1.enterVar w = ctx1.join v.varno w.varno := by
      obtain ⟨hlevel, hsub⟩ : w.varlevelsup = 0 ∧ ctx1.isSub w.varno = false := by simpa using hws
      simp [ContextExists.enterVar, hcours, hvar, hvs, hlevel, hsub]
    rw [hjoin, hpv, hpw]
    exact h1.join hvin hwin
  · -- an enclosing query restricts the second column alone
    obtain ⟨hpv, hvin⟩ := hown hv hvs
    have hmove : ctx1.enterVar w = ctx1.toSubLevel v.varno := by
      simp [ContextExists.enterVar, hcours, hvar, hvs, Bool.or_comm, hws]
    rw [hmove, hpv]
    exact (h1.toSubLevel hvin (place_mem hws)).symm
  · obtain ⟨hpw, hwin⟩ := hown hw hws
    have hmove : ctx1.enterVar w = ctx1.toSubLevel w.varno := by
      obtain ⟨hlevel, hsub⟩ : w.varlevelsup = 0 ∧ ctx1.isSub w.varno = false := by simpa using hws
      simp [ContextExists.enterVar, hcours, hvar, hvs, hlevel, hsub]
    rw [hmove, hpw]
    exact h1.toSubLevel hwin (place_mem hvs)
  · have hsame : ctx1.enterVar w = ctx1 := by
      simp [ContextExists.enterVar, hcours, hvar, hvs, Bool.or_comm, hws]
    rw [hsame]
    exact .same ⟨_, hblock, place_mem hvs, place_mem hws⟩

/-- The merged blocks are still a partition, a coarser one, with the two columns in one part. -/
theorem enterVar_pair {ctx : ContextExists} (hidle : Idle ctx) (h : Partitions n ctx) {v w : Var}
    (hv : InFrom n v) (hw : InFrom n w) :
    Partitions n ((ctx.enterVar v).enterVar w) ∧ Coarsens ctx ((ctx.enterVar v).enterVar w) ∧
      Linked ((ctx.enterVar v).enterVar w) v w := by
  have hmerges := enterVar_merges hidle h hv hw
  have hone := hmerges.inOne
  refine ⟨partitions_iff.mpr (hmerges.flatten_perm.trans (partitions_iff.mp h)),
    coarsens_of_merges hmerges, fun hv0 hw0 => ?_, fun hv0 hw0 => ?_, fun hw0 hv0 => ?_⟩
  · exact together_iff.mpr (by simpa [place, hv0, hw0] using hone)
  · exact mem_subLevel_iff.mpr (by simpa [place, hv0, hw0] using hone)
  · exact mem_subLevel_iff.mpr (by simpa [place, hv0, hw0] using hone.symm)

/-! ### The WHERE -/

/-- The columns of a comparison are in one part of the partition. -/
def LinkedNode (ctx : ContextExists) (a : Node α) : Prop :=
  ∀ opno v w, a = .opExpr opno [.var v, .var w] → Linked ctx v w

/-- A column or a constant. -/
inductive Operand (n : Nat) : Node α → Prop where
  | column {v} : InFrom n v → Operand n (.var v)
  | constant {c} : Operand n (.const c)

/-- A conjunct of the WHERE of a query with `n` FROM entries: a comparison with two operands,
EXISTS, or NOT EXISTS.  NULL stands for a constraint that was moved. -/
inductive Conjunct (n : Nat) : Node α → Prop where
  | null : Conjunct n .null
  | comparison {opno a b} : Operand n a → Operand n b → Conjunct n (.opExpr opno [a, b])
  | exist {targetList rtable fromlist quals} :
    Conjunct n (.subLink .existsSublink .null (.query targetList rtable fromlist quals))
  | notExist {targetList rtable fromlist quals} :
    Conjunct n
      (.boolExpr .notExpr [.subLink .existsSublink .null (.query targetList rtable fromlist quals)])

theorem Linking.conjunct {a : Node α} (h : Linking n a) : Conjunct n a := by
  obtain ⟨hv, hw, _, _⟩ := h
  exact .comparison (.column hv) (.column hw)

/-- What is known of the context before and after a part of the WHERE. -/
structure Walks (n : Nat) (ctx : ContextExists) : Prop where
  idle : Idle ctx
  partitions : Partitions n ctx
  nonempty : ∀ c ∈ ctx.listComposantesConnexes, c ≠ []

theorem walks_make (n : Nat) : Walks n (makeContextExists n) := by
  refine ⟨⟨rfl, rfl⟩, partitions_make n, fun c hc => ?_⟩
  obtain ⟨i, _, rfl⟩ := List.mem_map.mp hc
  exact List.cons_ne_nil i []

theorem Walks.comparison {ctx : ContextExists} (h : Walks n ctx) {opno : Oid} {v w : Var}
    (hv : InFrom n v) (hw : InFrom n w) :
    ∃ ctx', walk createConnexe (.opExpr opno [.var v, .var w] : Node α) ctx = (false, ctx') ∧
      Walks n ctx' ∧ Coarsens ctx ctx' ∧ Linked ctx' v w := by
  obtain ⟨hpart, hcoarse, hlinked⟩ := enterVar_pair h.idle h.partitions hv hw
  refine ⟨_, rfl, ⟨⟨rfl, rfl⟩, hpart, fun c hc => ?_⟩, ⟨hcoarse.subLevel, hcoarse.components⟩,
    hlinked⟩
  have hblocks : ∀ b ∈ ctx.blocks, b ≠ [] := by
    simp only [ContextExists.blocks, List.forall_mem_cons, List.forall_mem_map]
    exact ⟨List.cons_ne_nil _ _, fun c hc => by simpa using h.nonempty c hc⟩
  have hc' := (enterVar_merges h.idle h.partitions hv hw).ne_nil hblocks (c.map some)
    (List.mem_cons_of_mem _ (List.mem_map_of_mem hc))
  simpa using hc'

/-- A comparison with less than two columns changes nothing. -/
theorem walk_single {ctx : ContextExists} (hidle : Idle ctx) {opno : Oid} {a b : Node α}
    (ha : Operand n a) (hb : Operand n b) (hone : (∃ c, a = .const c) ∨ ∃ c, b = .const c) :
    walk createConnexe (.opExpr opno [a, b]) ctx = (false, ctx) := by
  obtain ⟨sub, list, cours, varSub⟩ := ctx
  obtain ⟨hcours, hvarSub⟩ := hidle
  cases hcours
  cases hvarSub
  cases ha with
  | constant =>
    cases hb <;> rfl
  | column =>
    cases hb with
    | constant => rfl
    | column => rcases hone with ⟨_, h⟩ | ⟨_, h⟩ <;> cases h

theorem walk_conjunct {ctx : ContextExists} (h : Walks n ctx) {a : Node α} (ha : Conjunct n a) :
    ∃ ctx', walk createConnexe a ctx = (false, ctx') ∧ Walks n ctx' ∧ Coarsens ctx ctx' ∧
      LinkedNode ctx' a := by
  cases ha with
  | null => exact ⟨ctx, rfl, h, .refl ctx, by rintro _ _ _ ⟨⟩⟩
  | @comparison opno a b ha hb =>
    by_cases hone : (∃ c, a = .const c) ∨ ∃ c, b = .const c
    · refine ⟨ctx, walk_single h.idle ha hb hone, h, .refl ctx, ?_⟩
      rintro opno v w heq
      cases heq
      rcases hone with ⟨_, hc⟩ | ⟨_, hc⟩ <;> cases hc
    · cases ha with
      | constant => exact absurd (.inl ⟨_, rfl⟩) hone
      | column hv =>
        cases hb with
        | constant => exact absurd (.inr ⟨_, rfl⟩) hone
        | column hw =>
          obtain ⟨ctx', hwalk, h', hle, hlinked⟩ := h.comparison hv hw
          refine ⟨ctx', hwalk, h', hle, ?_⟩
          rintro opno v w heq
          cases heq
          exact hlinked
  | exist => exact ⟨ctx, rfl, h, .refl ctx, by rintro _ _ _ ⟨⟩⟩
  | notExist => exact ⟨ctx, rfl, h, .refl ctx, by rintro _ _ _ ⟨⟩⟩

/-- `create_connexe` on the arguments of an AND. -/
theorem walkList_conjuncts {args : List (Node α)} (hargs : ∀ a ∈ args, Conjunct n a) :
    ∀ {ctx : ContextExists}, Walks n ctx →
      ∃ ctx', walkList createConnexe args ctx = (false, ctx') ∧ Walks n ctx' ∧
        Coarsens ctx ctx' ∧ ∀ a ∈ args, LinkedNode ctx' a := by
  induction args with
  | nil => exact fun {ctx} h => ⟨ctx, rfl, h, .refl ctx, by simp⟩
  | cons a args ih =>
    intro ctx h
    rw [List.forall_mem_cons] at hargs
    obtain ⟨ctx1, hhead, h1, hle1, hlinked1⟩ := walk_conjunct h hargs.1
    obtain ⟨ctx2, htail, h2, hle2, hlinked2⟩ := ih hargs.2 h1
    refine ⟨ctx2, by simp [walkList, hhead, htail], h2, hle1.trans hle2, ?_⟩
    refine List.forall_mem_cons.mpr ⟨?_, hlinked2⟩
    exact fun opno v w heq => (hlinked1 opno v w heq).mono hle2

/-- A WHERE as `optimize_self_constraint` leaves it: none, one comparison, or an AND of comparisons
in which NULL stands for what was moved. -/
inductive Where (n : Nat) : Node α → Prop where
  | none : Where n .null
  | one {a} : Linking n a → Where n a
  | and {args} : (∀ a ∈ args, a = .null ∨ Linking n a) → Where n (.boolExpr .andExpr args)

/-- The comparisons of a WHERE. -/
def conjuncts : Node α → List (Node α)
  | .boolExpr .andExpr args => args
  | a => [a]

/-- What is known of the components of a query. -/
theorem walk_where {quals : Node α} (h : Where n quals) :
    ∃ ctx, walk createConnexe quals (makeContextExists n) = (false, ctx) ∧ Partitions n ctx ∧
      ∀ a ∈ conjuncts quals, LinkedNode ctx a := by
  cases h with
  | none => exact ⟨_, rfl, partitions_make n, by rintro a ha _ _ _ rfl; simp [conjuncts] at ha⟩
  | one ha =>
    obtain ⟨ctx, hwalk, h', _, hlinked⟩ := walk_conjunct (walks_make n) ha.conjunct
    refine ⟨ctx, hwalk, h'.partitions, ?_⟩
    obtain ⟨_, _, _, _⟩ := ha
    simpa [conjuncts] using hlinked
  | @and args hargs =>
    have hconjuncts : ∀ a ∈ args, Conjunct n a := fun a ha =>
      (hargs a ha).elim (fun hnull => hnull ▸ .null) Linking.conjunct
    obtain ⟨ctx, hwalk, h', _, hlinked⟩ := walkList_conjuncts hconjuncts (walks_make n)
    exact ⟨ctx, hwalk, h'.partitions, hlinked⟩

/-! ### Components of one table -/

/-- The comparison has no column of the `k`-th FROM entry. -/
def Without (k : Nat) (a : Node α) : Prop :=
  ∀ opno v w, a = .opExpr opno [.var v, .var w] →
    (v.varlevelsup = 0 → v.varno ≠ k) ∧ (w.varlevelsup = 0 → w.varno ≠ k)

theorem ne_of_together {ctx : ContextExists} (h : Partitions n ctx) {k j : Nat}
    (hk : [k] ∈ ctx.listComposantesConnexes) (hj : Together ctx k j) : j = k := by
  have hdisjoint := (List.nodup_append.mp h.nodup).2.2
  rcases hj with ⟨hsub, _⟩ | ⟨c, hc, hkc, hjc⟩
  · exact absurd rfl (hdisjoint k hsub k (List.mem_flatten.mpr ⟨_, hk, by simp⟩))
  · obtain rfl := block_unique h.components hk (List.mem_singleton_self k) hc hkc
    exact List.mem_singleton.mp hjc

/-- A table that is a component of its own is in no comparison. -/
theorem without_of_singleton {ctx : ContextExists} (h : Partitions n ctx) {k : Nat}
    (hk : [k] ∈ ctx.listComposantesConnexes) {a : Node α} (ha : Linking n a)
    (hlinked : LinkedNode ctx a) : Without k a := by
  obtain @⟨_, v, w, _, _, _, hne⟩ := ha
  intro _ _ _ heq
  cases heq
  obtain ⟨hboth, hleft, hright⟩ := hlinked _ _ _ rfl
  have hnot : k ∉ ctx.composanteConnexeSubLevel := fun hsub =>
    (List.nodup_append.mp h.nodup).2.2 k hsub k (List.mem_flatten.mpr ⟨_, hk, by simp⟩) rfl
  constructor
  · rintro hv rfl
    by_cases hw : w.varlevelsup = 0
    · have := ne_of_together h hk (hboth hv hw)
      exact hne (by simp [Self.tableOf, hv, hw, this])
    · exact hnot (hleft hv hw)
  · rintro hw rfl
    by_cases hv : v.varlevelsup = 0
    · have := ne_of_together h hk (hboth hv hw).symm
      exact hne (by simp [Self.tableOf, hv, hw, this])
    · exact hnot (hright hw hv)

end Infed.Exist
