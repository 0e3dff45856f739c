import Infed.Exist.Components

/-! `create_connexe` and connectivity.  The tables of a query and, as one more place, the enclosing
queries are linked by the comparisons with two columns; the components should be the classes of this
relation.  `varno_en_cours` is forgotten where an `OpExpr` ends, so that of `r.a + 1 = s.b` the walk
sees two columns that have nothing to do with each other. -/

namespace Infed.Exist

variable {α : Type} {n : Nat} {E : List (Option Nat × Option Nat)} {ctx : ContextExists}

/-! ### Conditions -/

/-- A column, a constant, or an operator over such arguments. -/
inductive Expression (n : Nat) : Node α → Prop where
  | column {v} : InFrom n v → Expression n (.var v)
  | constant {c} : Expression n (.const c)
  | op {opno args} : (∀ a ∈ args, Expression n a) → Expression n (.opExpr opno args)

mutual

/-- The columns of an expression as they are read, and `none` where an operator ends. -/
def reading : Node α → List (Option Var)
  | .var v => [some v]
  | .opExpr _ args => readingList args ++ [none]
  | _ => []

def readingList : List (Node α) → List (Option Var)
  | [] => []
  | node :: nodes => reading node ++ readingList nodes

end

theorem readingList_eq_flatMap (nodes : List (Node α)) :
    readingList nodes = nodes.flatMap reading := by
  induction nodes with
  | nil => rfl
  | cons a nodes ih => rw [readingList, List.flatMap_cons, ih]

/-- The columns of a comparison. -/
def columns (a : Node α) : List (Option Var) := (reading a).filter Option.isSome

/-- The columns that follow one another. -/
def pairs : List (Option Var) → List (Option Nat × Option Nat)
  | some v :: some w :: l => (place v, place w) :: pairs l
  | _ :: l => pairs l
  | [] => []

/-- AND, OR, and NOT over comparisons with at most two columns. -/
inductive Combination (n : Nat) : Node α → Prop where
  | none : Combination n .null
  | comparison {opno args} : (∀ a ∈ args, Expression n a) →
    (columns (.opExpr opno args)).length ≤ 2 → Combination n (.opExpr opno args)
  | bool {boolop args} : (∀ a ∈ args, Combination n a) → Combination n (.boolExpr boolop args)

mutual

/-- The comparisons of a condition. -/
def comparisons : Node α → List (Node α)
  | .boolExpr _ args => comparisonsList args
  | .opExpr opno args => [.opExpr opno args]
  | _ => []

def comparisonsList : List (Node α) → List (Node α)
  | [] => []
  | node :: nodes => comparisons node ++ comparisonsList nodes

end

theorem comparisonsList_eq_flatMap (nodes : List (Node α)) :
    comparisonsList nodes = nodes.flatMap comparisons := by
  induction nodes with
  | nil => rfl
  | cons a nodes ih => rw [comparisonsList, List.flatMap_cons, ih]

/-- The links of a condition: the two columns of each comparison that has two. -/
def links (quals : Node α) : List (Option Nat × Option Nat) :=
  (comparisons quals).flatMap fun a => pairs (columns a)

/-- The links with no operator that ends between the two columns. -/
def adjacentLinks (quals : Node α) : List (Option Nat × Option Nat) :=
  (comparisons quals).flatMap fun a => pairs (reading a)

/-- The context is the connectivity that the links `E` give.  `none` stands for the enclosing
queries, and a chain may take the links in any order and direction. -/
structure Connectivity (n : Nat) (E : List (Option Nat × Option Nat)) (ctx : ContextExists) :
    Prop where
  partitions : Partitions n ctx
  subLevel : ∀ i, 1 ≤ i → i ≤ n →
    (i ∈ ctx.composanteConnexeSubLevel ↔ Connected E (some i) none)
  components : ∀ i j, 1 ≤ i → i ≤ n → 1 ≤ j → j ≤ n → i ∉ ctx.composanteConnexeSubLevel →
    j ∉ ctx.composanteConnexeSubLevel →
    ((∃ c ∈ ctx.listComposantesConnexes, i ∈ c ∧ j ∈ c) ↔ Connected E (some i) (some j))

/-! ### Blocks -/

/-- A FROM entry or the enclosing queries. -/
def IsPlace (n : Nat) (x : Option Nat) : Prop := x ∈ none :: (List.range' 1 n).map some

theorem isPlace_some {i : Nat} : IsPlace n (some i) ↔ 1 ≤ i ∧ i ≤ n := by
  simp only [IsPlace, List.mem_cons, reduceCtorEq, List.mem_map, Option.some.injEq, exists_eq_right,
    List.mem_range'_1, false_or]
  omega

theorem isPlace_none : IsPlace n none := List.mem_cons_self

theorem InFrom.isPlace {v : Var} (h : InFrom n v) : IsPlace n (place v) := by
  by_cases h0 : v.varlevelsup = 0
  · simpa [place, h0, isPlace_some] using h h0
  · simpa [place, h0] using isPlace_none

/-- The blocks are the classes of the places. -/
structure Represents (n : Nat) (E : List (Option Nat × Option Nat)) (ctx : ContextExists) :
    Prop where
  partitions : Partitions n ctx
  inOne : ∀ x y, IsPlace n x → IsPlace n y → (InOne ctx.blocks x y ↔ Connected E x y)

theorem inOne_some {i j : Nat} (hi : i ∉ ctx.composanteConnexeSubLevel) :
    InOne ctx.blocks (some i) (some j) ↔ ∃ c ∈ ctx.listComposantesConnexes, i ∈ c ∧ j ∈ c := by
  simp [InOne, ContextExists.blocks, hi]

theorem connectivity_iff : Connectivity n E ctx ↔ Represents n E ctx := by
  constructor
  · intro h
    have houter : ∀ i, IsPlace n (some i) →
        (InOne ctx.blocks (some i) none ↔ Connected E (some i) none) := by
      intro i hi
      rw [← mem_subLevel_iff]
      exact h.subLevel i (isPlace_some.mp hi).1 (isPlace_some.mp hi).2
    have hself : ∀ x, IsPlace n x → InOne ctx.blocks x x := fun x hx =>
      inOne_self.mpr ((partitions_iff.mp h.partitions).mem_iff.mpr hx)
    refine ⟨h.partitions, fun x y hx hy => ?_⟩
    cases x with
    | none =>
      cases y with
      | none => exact iff_of_true (hself none hx) (.refl E none)
      | some j =>
        rw [inOne_comm, houter j hy]
        exact ⟨.symm, .symm⟩
    | some i =>
      cases y with
      | none => exact houter i hx
      | some j =>
        obtain ⟨hi1, hin⟩ := isPlace_some.mp hx
        obtain ⟨hj1, hjn⟩ := isPlace_some.mp hy
        -- a place in the block of the enclosing queries is linked only with others of that block
        by_cases hi : i ∈ ctx.composanteConnexeSubLevel
        · have hi' := mem_subLevel_iff.mp hi
          have hi'' := (houter i hx).mp hi'
          constructor
          · intro hij
            have hj := (houter j hy).mp (hij.symm.trans h.partitions.blocks hi')
            exact hi''.trans hj.symm
          · intro hij
            have hj := (houter j hy).mpr (hij.symm.trans hi'')
            exact hi'.trans h.partitions.blocks hj.symm
        · by_cases hj : j ∈ ctx.composanteConnexeSubLevel
          · have hj' := mem_subLevel_iff.mp hj
            have hj'' := (houter j hy).mp hj'
            refine iff_of_false (fun hij => ?_) (fun hij => ?_)
            · exact hi (mem_subLevel_iff.mpr (hij.trans h.partitions.blocks hj'))
            · exact hi (mem_subLevel_iff.mpr ((houter i hx).mpr (hij.trans hj'')))
          · rw [inOne_some hi]
            exact h.components i j hi1 hin hj1 hjn hi hj
  · intro h
    refine ⟨h.partitions, fun i h1 hn => ?_, fun i j hi1 hin hj1 hjn hi _ => ?_⟩
    · rw [mem_subLevel_iff]
      exact h.inOne _ _ (isPlace_some.mpr ⟨h1, hn⟩) isPlace_none
    · rw [← inOne_some hi]
      exact h.inOne _ _ (isPlace_some.mpr ⟨hi1, hin⟩) (isPlace_some.mpr ⟨hj1, hjn⟩)

/-! ### The walk -/

/-- Between two comparisons, the blocks are the classes of the links so far. -/
structure Seen (n : Nat) (E : List (Option Nat × Option Nat)) (ctx : ContextExists) : Prop where
  idle : Idle ctx
  represents : Represents n E ctx

theorem seen_make (n : Nat) : Seen n [] (makeContextExists n) := by
  refine ⟨⟨rfl, rfl⟩, partitions_make n, fun x y hx hy => ?_⟩
  have hblocks : (makeContextExists n).blocks =
      (none :: (List.range' 1 n).map some).map ([·]) := by
    simp [ContextExists.blocks, makeContextExists]
  have hone : InOne (makeContextExists n).blocks x y ↔ IsPlace n x ∧ x = y := by
    rw [hblocks, InOne, IsPlace]
    constructor
    · rintro ⟨b, hb, hxb, hyb⟩
      obtain ⟨z, hz, rfl⟩ := List.mem_map.mp hb
      obtain rfl := List.mem_singleton.mp hxb
      exact ⟨hz, (List.mem_singleton.mp hyb).symm⟩
    · rintro ⟨hx, rfl⟩
      exact ⟨[x], List.mem_map_of_mem hx, by simp, by simp⟩
  rw [hone, connected_nil]
  exact ⟨And.right, fun h => ⟨hx, h⟩⟩

/-- The end of an `OpExpr`. -/
def ContextExists.forget (ctx : ContextExists) : ContextExists :=
  { ctx with varnoEnCours := none, varSub := false }

/-- What the walk does at a column or at the end of an operator. -/
def ContextExists.read (ctx : ContextExists) : Option Var → ContextExists
  | some v => ctx.enterVar v
  | none => ctx.forget

theorem walkList_reading {args : List (Node α)}
    (h : ∀ a ∈ args, ∀ ctx, walk createConnexe a ctx = (false, (reading a).foldl .read ctx)) :
    ∀ ctx, walkList createConnexe args ctx = (false, (readingList args).foldl .read ctx) := by
  induction args with
  | nil => exact fun _ => rfl
  | cons a args ih =>
    intro ctx
    rw [List.forall_mem_cons] at h
    rw [walkList, h.1 ctx, readingList, List.foldl_append]
    exact ih h.2 _

theorem walk_expression {a : Node α} (h : Expression n a) :
    ∀ ctx, walk createConnexe a ctx = (false, (reading a).foldl .read ctx) := by
  induction h with
  | column => exact fun _ => rfl
  | constant => exact fun _ => rfl
  | @op opno args _ ih =>
    intro ctx
    rw [walk, createConnexe, walkList_reading ih, reading, List.foldl_append]
    rfl

theorem Idle.forget (h : Idle ctx) : ctx.forget = ctx := by
  obtain ⟨sub, list, cours, var⟩ := ctx
  obtain ⟨rfl, rfl⟩ := h
  rfl

/-- A column alone leaves nothing. -/
theorem Idle.enterVar_forget (h : Idle ctx) (v : Var) : (ctx.enterVar v).forget = ctx := by
  rw [enterVar_first h]
  exact h.forget

theorem Seen.merge (h : Seen n E ctx) {v w : Var} (hv : InFrom n v) (hw : InFrom n w) :
    Seen n (E ++ [(place v, place w)]) ((ctx.enterVar v).enterVar w).forget := by
  have hmerges := enterVar_merges h.idle h.represents.partitions hv hw
  refine ⟨⟨rfl, rfl⟩, (enterVar_pair h.idle h.represents.partitions hv hw).1, fun x y hx hy => ?_⟩
  have hiff := h.represents.inOne
  rw [connected_concat]
  refine (hmerges.inOne_iff h.represents.partitions.blocks).trans ?_
  unfold Joined
  rw [hiff _ _ hx hy, hiff _ _ hx hv.isPlace, hiff _ _ hw.isPlace hy, hiff _ _ hx hw.isPlace,
    hiff _ _ hv.isPlace hy]

/-- Past the last column, operators end. -/
theorem foldl_read_forget {l : List (Option Var)} (h : l.filter Option.isSome = []) :
    (l ++ [none]).foldl ContextExists.read ctx = ctx.forget := by
  induction l generalizing ctx with
  | nil => rfl
  | cons x l ih =>
    cases x with
    | some v => simp at h
    | none => exact ih (by simpa using h)

theorem pairs_eq_nil {l : List (Option Var)} (h : (l.filter Option.isSome).length ≤ 1) :
    pairs l = [] := by
  fun_induction pairs l with
  | case1 v w l => simp at h
  | case2 x l _ ih =>
    refine ih (Nat.le_trans ?_ h)
    exact ((List.sublist_cons_self x l).filter _).length_le
  | case3 => rfl

theorem pairs_concat_none (l : List (Option Var)) : pairs (l ++ [none]) = pairs l := by
  fun_induction pairs l with
  | case1 v w l ih => rw [List.cons_append, List.cons_append, pairs, ih]
  | case2 x l hx ih =>
    rw [← ih, List.cons_append, pairs]
    rintro v w l' rfl heq
    rcases l with _ | ⟨y, l⟩
    · simp at heq
    · obtain ⟨rfl, _⟩ := List.cons.inj heq
      exact hx v w l rfl rfl
  | case3 => rfl

/-- A comparison with at most two columns. -/
theorem Seen.foldl_read (h : Seen n E ctx) {l : List (Option Var)}
    (hfrom : ∀ v, some v ∈ l → InFrom n v) (hlen : (l.filter Option.isSome).length ≤ 2) :
    Seen n (E ++ pairs l) ((l ++ [none]).foldl .read ctx) := by
  fun_induction pairs l with
  | case1 v w l _ =>
    have hnil : l.filter Option.isSome = [] := by
      simp only [List.filter_cons, Option.isSome_some, if_true, List.length_cons] at hlen
      exact List.length_eq_zero_iff.mp (by omega)
    have hrest : (some v :: some w :: l ++ [none]).foldl ContextExists.read ctx =
        ((ctx.enterVar v).enterVar w).forget := foldl_read_forget hnil
    rw [hrest, pairs_eq_nil (by rw [hnil]; decide)]
    exact h.merge (hfrom v (by simp)) (hfrom w (by simp))
  | case2 x l hx ih =>
    have hsub := ih (fun v hv => hfrom v (List.mem_cons_of_mem x hv))
      (Nat.le_trans ((List.sublist_cons_self x l).filter _).length_le hlen)
    cases x with
    | none =>
      show Seen n _ ((l ++ [none]).foldl .read ctx.forget)
      rw [h.idle.forget]
      exact hsub
    | some v =>
      -- an operator ends right after the column, which is forgotten
      obtain ⟨l', hl'⟩ : ∃ l', l ++ [none] = none :: l' := by
        rcases l with _ | ⟨_ | w, l⟩
        · exact ⟨[], rfl⟩
        · exact ⟨l ++ [none], rfl⟩
        · exact absurd rfl (hx v w l rfl)
      have hskip : (some v :: l ++ [none]).foldl ContextExists.read ctx =
          (l ++ [none]).foldl .read ctx := by
        rw [List.cons_append, hl']
        show l'.foldl ContextExists.read (ctx.enterVar v).forget = l'.foldl .read ctx.forget
        rw [h.idle.enterVar_forget, h.idle.forget]
      rw [hskip]
      exact hsub
  | case3 =>
    show Seen n (E ++ []) ctx.forget
    rw [h.idle.forget, List.append_nil]
    exact h

theorem Expression.inFrom {a : Node α} (h : Expression n a) :
    ∀ v, some v ∈ reading a → InFrom n v := by
  induction h with
  | column hv =>
    intro w hw
    obtain rfl := Option.some.inj (List.mem_singleton.mp hw)
    exact hv
  | constant => exact fun _ hv => absurd hv List.not_mem_nil
  | op _ ih =>
    intro v hv
    rw [reading, readingList_eq_flatMap] at hv
    obtain ⟨a, ha, hva⟩ := List.mem_flatMap.mp (by simpa using hv)
    exact ih a ha v hva

/-- The walk over the arguments of a node, from what it does on each. -/
theorem walkList_seen {args : List (Node α)} {f : Node α → List (Option Nat × Option Nat)}
    (h : ∀ a ∈ args, ∀ {E ctx}, Seen n E ctx →
      ∃ ctx', walk createConnexe a ctx = (false, ctx') ∧ Seen n (E ++ f a) ctx') :
    ∀ {E ctx}, Seen n E ctx →
      ∃ ctx', walkList createConnexe args ctx = (false, ctx') ∧
        Seen n (E ++ args.flatMap f) ctx' := by
  induction args with
  | nil => exact fun {E ctx} hseen => ⟨ctx, rfl, by simpa using hseen⟩
  | cons a args ih =>
    intro E ctx hseen
    rw [List.forall_mem_cons] at h
    obtain ⟨ctx1, hhead, hseen1⟩ := h.1 hseen
    obtain ⟨ctx2, htail, hseen2⟩ := ih h.2 hseen1
    refine ⟨ctx2, by simp [walkList, hhead, htail], ?_⟩
    rw [List.flatMap_cons, ← List.append_assoc]
    exact hseen2

/-- `create_connexe` follows the links between whose columns no operator ends. -/
theorem walk_combination {a : Node α} (h : Combination n a) :
    ∀ {E ctx}, Seen n E ctx →
      ∃ ctx', walk createConnexe a ctx = (false, ctx') ∧ Seen n (E ++ adjacentLinks a) ctx' := by
  induction h with
  | none =>
    intro E ctx hseen
    exact ⟨ctx, rfl, by simpa [adjacentLinks, comparisons] using hseen⟩
  | @comparison opno args hargs hlen =>
    intro E ctx hseen
    have hexpr : Expression n (.opExpr opno args) := .op hargs
    refine ⟨_, walk_expression hexpr ctx, ?_⟩
    have hfrom : ∀ v, some v ∈ readingList args → InFrom n v := fun v hv =>
      hexpr.inFrom v (List.mem_append_left _ hv)
    have hlen' : ((readingList args).filter Option.isSome).length ≤ 2 := by
      simpa [columns, reading] using hlen
    have hpairs : adjacentLinks (.opExpr opno args) = pairs (readingList args) := by
      rw [adjacentLinks, comparisons, List.flatMap_singleton]
      exact pairs_concat_none (readingList args)
    rw [hpairs]
    exact hseen.foldl_read hfrom hlen'
  | @bool boolop args _ ih =>
    intro E ctx hseen
    obtain ⟨ctx', hwalk, hseen'⟩ := walkList_seen (f := adjacentLinks) ih hseen
    refine ⟨ctx', hwalk, ?_⟩
    rw [adjacentLinks, comparisons, comparisonsList_eq_flatMap, List.flatMap_assoc]
    exact hseen'

/-! ### The links that are missed -/

theorem pairs_subset {l : List (Option Var)} (h : (l.filter Option.isSome).length ≤ 2) :
    ∀ e ∈ pairs l, e ∈ pairs (l.filter Option.isSome) := by
  fun_induction pairs l with
  | case1 v w l _ =>
    have hnil : (l.filter Option.isSome).length = 0 := by
      simp only [List.filter_cons, Option.isSome_some, if_true, List.length_cons] at h
      omega
    rw [pairs_eq_nil (by omega)]
    intro e he
    obtain rfl := List.mem_singleton.mp he
    simp [pairs]
  | case2 x l hx ih =>
    cases x with
    | none => exact ih (by simpa using h)
    | some v =>
      have hone : (l.filter Option.isSome).length ≤ 1 := by simpa using h
      rw [pairs_eq_nil hone]
      exact fun e he => absurd he List.not_mem_nil
  | case3 => exact fun e he => absurd he List.not_mem_nil

theorem isPlace_pairs {l : List (Option Var)} (h : ∀ v, some v ∈ l → InFrom n v) :
    ∀ e ∈ pairs l, IsPlace n e.1 ∧ IsPlace n e.2 := by
  fun_induction pairs l with
  | case1 v w l ih =>
    refine List.forall_mem_cons.mpr ⟨⟨(h v (by simp)).isPlace, (h w (by simp)).isPlace⟩, ?_⟩
    exact ih fun v hv => h v (by simp [hv])
  | case2 x l _ ih => exact ih fun v hv => h v (List.mem_cons_of_mem _ hv)
  | case3 => exact fun e he => absurd he List.not_mem_nil

theorem Combination.comparisons {a : Node α} (h : Combination n a) :
    ∀ c ∈ comparisons a, Expression n c ∧ (columns c).length ≤ 2 := by
  induction h with
  | none => exact fun c hc => absurd hc List.not_mem_nil
  | comparison hargs hlen =>
    intro c hc
    obtain rfl := List.mem_singleton.mp hc
    exact ⟨.op hargs, hlen⟩
  | bool _ ih =>
    intro c hc
    rw [Exist.comparisons, comparisonsList_eq_flatMap] at hc
    obtain ⟨a, ha, hca⟩ := List.mem_flatMap.mp hc
    exact ih a ha c hca

theorem adjacentLinks_subset {quals : Node α} (h : Combination n quals) :
    ∀ e ∈ adjacentLinks quals, e ∈ links quals := by
  intro e he
  obtain ⟨c, hc, he⟩ := List.mem_flatMap.mp he
  exact List.mem_flatMap.mpr ⟨c, hc, pairs_subset (h.comparisons c hc).2 e he⟩

theorem isPlace_links {quals : Node α} (h : Combination n quals) :
    ∀ e ∈ links quals, IsPlace n e.1 ∧ IsPlace n e.2 := by
  intro e he
  obtain ⟨c, hc, he⟩ := List.mem_flatMap.mp he
  refine isPlace_pairs (fun v hv => ?_) e he
  exact (h.comparisons c hc).1.inFrom v (List.mem_of_mem_filter hv)

/-- `create_connexe` computes the connectivity of the tables exactly when each comparison with an
operator that ends between its two columns links places that the other comparisons link anyway. -/
theorem createConnexe_connectivity_iff (n : Nat) (quals : Node α) (h : Combination n quals) :
    Connectivity n (links quals) (walk createConnexe quals (makeContextExists n)).2 ↔
      ∀ e ∈ links quals, Connected (adjacentLinks quals) e.1 e.2 := by
  obtain ⟨ctx, hwalk, hseen⟩ := walk_combination h (seen_make n)
  rw [List.nil_append] at hseen
  rw [hwalk, connectivity_iff]
  constructor
  · intro hrep e he
    obtain ⟨h1, h2⟩ := isPlace_links h e he
    rw [← hseen.represents.inOne _ _ h1 h2, hrep.inOne _ _ h1 h2]
    exact .edge he
  · intro hlinks
    refine ⟨hseen.represents.partitions, fun x y hx hy => ?_⟩
    rw [hseen.represents.inOne x y hx hy]
    exact ⟨.mono (adjacentLinks_subset h), .of_edges fun p q hpq => hlinks (p, q) hpq⟩

/-- Column `varattno` of the table `varno` of the query. -/
def own (varno varattno : Nat) : Node Int := .var ⟨varno, varattno, 0⟩

/-- `r.a = o.a AND NOT (r.b = s.b)`, where `o` is a table of an enclosing query. -/
def chain : Node Int :=
  .boolExpr .andExpr [.opExpr 96 [own 1 1, .var ⟨1, 1, 1⟩],
    .boolExpr .notExpr [.opExpr 96 [own 1 2, own 2 2]]]

theorem createConnexe_connectivity_chain :
    Combination 3 chain ∧
      Connectivity 3 (links chain) (walk createConnexe chain (makeContextExists 3)).2 := by
  have hcolumn : ∀ i j k, 1 ≤ i ∧ i ≤ 3 → Expression 3 (.var ⟨i, j, k⟩ : Node Int) :=
    fun i j k hi => .column fun _ => hi
  have h : Combination 3 chain := by
    refine .bool (List.forall_mem_cons.mpr ⟨.comparison ?_ (by decide),
      List.forall_mem_singleton.mpr (.bool (List.forall_mem_singleton.mpr
        (.comparison ?_ (by decide))))⟩)
    · exact List.forall_mem_cons.mpr ⟨hcolumn 1 1 0 (by decide),
        List.forall_mem_singleton.mpr (hcolumn 1 1 1 (by decide))⟩
    · exact List.forall_mem_cons.mpr ⟨hcolumn 1 2 0 (by decide),
        List.forall_mem_singleton.mpr (hcolumn 2 2 0 (by decide))⟩
  exact ⟨h, (createConnexe_connectivity_iff 3 chain h).mpr fun e he => .edge he⟩

/-- `r.a + 1 = s.b`. -/
def shifted : Node Int := .opExpr 96 [.opExpr 551 [own 1 1, .const (some 1)], own 2 2]

/-- The two tables of `r.a + 1 = s.b` are taken for unconnected. -/
theorem createConnexe_shifted :
    Combination 2 shifted ∧
      ¬ Connectivity 2 (links shifted) (walk createConnexe shifted (makeContextExists 2)).2 := by
  have hcolumn : ∀ i j, 1 ≤ i ∧ i ≤ 2 → Expression 2 (own i j) := fun i j hi => .column fun _ => hi
  constructor
  · refine .comparison (List.forall_mem_cons.mpr ⟨.op ?_,
      List.forall_mem_singleton.mpr (hcolumn 2 2 (by decide))⟩) (by decide)
    exact List.forall_mem_cons.mpr ⟨hcolumn 1 1 (by decide),
      List.forall_mem_singleton.mpr .constant⟩
  · intro h
    have hctx : (walk createConnexe shifted (makeContextExists 2)).2 = makeContextExists 2 := by
      decide
    have hlinked : Connected (links shifted) (some 1) (some 2) := .edge (by decide)
    rw [hctx] at h
    have hblocks := (h.components 1 2 (by decide) (by decide) (by decide) (by decide) (by decide)
      (by decide)).mpr hlinked
    revert hblocks
    decide

/-- The other way round, the walk meets the two columns before the operator ends. -/
example : (walk createConnexe (.opExpr 96 [own 2 2, .opExpr 551 [own 1 1, .const (some 1)]])
    (makeContextExists 2)).2.listComposantesConnexes = [[2, 1]] := by decide

end Infed.Exist
