import Infed.Self.Conjuncts
import Infed.Self.Gather

/-! When `add_constrain` conjoins.  `temp_modifier_add` appends the constraint to every AND that is
left with `to_add` set, at any depth, so that inside an OR it can end up in some of the disjuncts
only. -/

namespace Infed.Self

variable {α : Type}

/-! ### Where the constraint goes -/

/-- Comparisons and null tests under AND, OR and bare lists. -/
inductive Combination : Node α → Prop where
  | test {a} : Test a → Combination a
  | and {args} : (∀ a ∈ args, Combination a) → Combination (.boolExpr .andExpr args)
  | or {args} : args ≠ [] → (∀ a ∈ args, Combination a) → Combination (.boolExpr .orExpr args)
  | list {elems} : (∀ a ∈ elems, Combination a) → Combination (.list elems)

mutual

/-- The comparisons and null tests of a combination. -/
def testsOf : Node α → List (Node α)
  | .boolExpr _ args => testsOfList args
  | .list elems => testsOfList elems
  | node => [node]

def testsOfList : List (Node α) → List (Node α)
  | [] => []
  | node :: nodes => testsOf node ++ testsOfList nodes

end

mutual

/-- The flag `to_add` after a node, from its value before. -/
def toAddAfter (table : Table) : Bool → Node α → Bool
  | toAdd, .var v => toAdd || decide (table = tableOf v)
  | toAdd, .opExpr _ args => toAddAfterList table toAdd args
  | toAdd, .nullTest _ arg => toAddAfter table toAdd arg
  -- an AND takes the constraint if the flag is set
  | _, .boolExpr .andExpr _ => false
  | toAdd, .boolExpr _ args => toAddAfterList table toAdd args
  | toAdd, .list elems => toAddAfterList table toAdd elems
  | toAdd, _ => toAdd

def toAddAfterList (table : Table) : Bool → List (Node α) → Bool
  | toAdd, [] => toAdd
  | toAdd, node :: nodes => toAddAfterList table (toAddAfter table toAdd node) nodes

end

mutual

/-- An AND in the node takes the constraint. -/
def inserts (table : Table) : Bool → Node α → Bool
  | toAdd, .boolExpr .andExpr args =>
    insertsList table toAdd args || toAddAfterList table toAdd args
  | toAdd, .boolExpr _ args => insertsList table toAdd args
  | toAdd, .list elems => insertsList table toAdd elems
  | _, _ => false

def insertsList (table : Table) : Bool → List (Node α) → Bool
  | _, [] => false
  | toAdd, node :: nodes =>
    inserts table toAdd node || insertsList table (toAddAfter table toAdd node) nodes

end

mutual

/-- The constraint is taken where the node is false without it: by an AND itself, by an argument of
an AND, or by every argument of an OR. -/
def guards (table : Table) : Bool → Node α → Bool
  | toAdd, .boolExpr .andExpr args =>
    guardsSome table toAdd args || toAddAfterList table toAdd args
  | toAdd, .boolExpr .orExpr args => guardsAll table toAdd args
  | toAdd, .list elems => guardsSome table toAdd elems
  | _, _ => false

def guardsSome (table : Table) : Bool → List (Node α) → Bool
  | _, [] => false
  | toAdd, node :: nodes =>
    guards table toAdd node || guardsSome table (toAddAfter table toAdd node) nodes

def guardsAll (table : Table) : Bool → List (Node α) → Bool
  | _, [] => true
  | toAdd, node :: nodes =>
    guards table toAdd node && guardsAll table (toAddAfter table toAdd node) nodes

end

/-- Of the constraints, the first one with a column of the table has no AND that takes the new one,
or takes it where it is false without it. -/
def conjoins (table : Table) : List (Node α) → Bool
  | [] => true
  | t :: rel =>
    if inserts table false t then guards table false t
    else toAddAfter table false t || conjoins table rel

/-! ### What becomes of the truth value -/

/-- With a value `k` conjoined in some places, `x` becomes `y`. -/
structure Sandwiched (k x y : Kleene) : Prop where
  below : y ≤ x
  above : min x k ≤ y

theorem Sandwiched.refl (k x : Kleene) : Sandwiched k x x := ⟨le_rfl, min_le_left _ _⟩

theorem Sandwiched.min {k x y x' y' : Kleene} (h : Sandwiched k x y) (h' : Sandwiched k x' y') :
    Sandwiched k (min x x') (min y y') := by
  refine ⟨min_le_min h.below h'.below, ?_⟩
  rw [inf_inf_distrib_right]
  exact min_le_min h.above h'.above

theorem Sandwiched.max {k x y x' y' : Kleene} (h : Sandwiched k x y) (h' : Sandwiched k x' y') :
    Sandwiched k (max x x') (max y y') := by
  refine ⟨max_le_max h.below h'.below, ?_⟩
  rw [min_max_distrib_right]
  exact max_le_max h.above h'.above

/-- Conjoined at the top. -/
theorem Sandwiched.and {k x y : Kleene} (h : Sandwiched k x y) :
    Sandwiched k x (Min.min y k) :=
  ⟨(min_le_left _ _).trans h.below, le_min h.above (min_le_right _ _)⟩

/-- Below the conjoined value it is the conjunction. -/
theorem Sandwiched.eq_min {k x y : Kleene} (h : Sandwiched k x y) (hk : y ≤ k) : y = Min.min x k :=
  le_antisymm (le_min h.below hk) h.above

/-- No test of the node is false. -/
def Open (I : Interp α) (D : Database α) (ρ : Env α) (tests : List (Node α)) : Prop :=
  ∀ t ∈ tests, evalCond I D t ρ ≠ .false

/-- A condition in which the constraint `c` has been inserted.  It is true where both are; it is
false with `c` if it is guarded, and if it is not, not for that reason. -/
structure Placed (c : Node α) (guarded : Bool) (tests : List (Node α))
    (value value' : Interp α → Database α → Env α → Kleene) : Prop where
  sandwiched : ∀ I D ρ, Sandwiched (evalCond I D c ρ) (value I D ρ) (value' I D ρ)
  guarded_le : guarded = true → ∀ I D ρ, value' I D ρ ≤ evalCond I D c ρ
  ne_false : guarded = false → ∀ I D ρ, Open I D ρ tests → value' I D ρ ≠ .false

namespace Placed

variable {c : Node α} {g g' : Bool} {tests tests' : List (Node α)}
  {x y x' y' : Interp α → Database α → Env α → Kleene}

theorem min (h : Placed c g tests x y) (h' : Placed c g' tests' x' y') :
    Placed c (g || g') (tests ++ tests') (fun I D ρ => min (x I D ρ) (x' I D ρ))
      (fun I D ρ => min (y I D ρ) (y' I D ρ)) := by
  refine ⟨fun I D ρ => (h.sandwiched I D ρ).min (h'.sandwiched I D ρ), fun hg I D ρ => ?_,
    fun hg I D ρ hopen => ?_⟩
  · rcases Bool.or_eq_true_iff.mp hg with hg | hg
    · exact (min_le_left _ _).trans (h.guarded_le hg I D ρ)
    · exact (min_le_right _ _).trans (h'.guarded_le hg I D ρ)
  · obtain ⟨hopen, hopen'⟩ := List.forall_mem_append.mp hopen
    obtain ⟨hg, hg'⟩ := Bool.or_eq_false_iff.mp hg
    rcases min_choice (y I D ρ) (y' I D ρ) with hmin | hmin
    · exact ne_of_eq_of_ne hmin (h.ne_false hg I D ρ hopen)
    · exact ne_of_eq_of_ne hmin (h'.ne_false hg' I D ρ hopen')

theorem max (h : Placed c g tests x y) (h' : Placed c g' tests' x' y') :
    Placed c (g && g') (tests ++ tests') (fun I D ρ => max (x I D ρ) (x' I D ρ))
      (fun I D ρ => max (y I D ρ) (y' I D ρ)) := by
  refine ⟨fun I D ρ => (h.sandwiched I D ρ).max (h'.sandwiched I D ρ), fun hg I D ρ => ?_,
    fun hg I D ρ hopen => ?_⟩
  · obtain ⟨hg, hg'⟩ := Bool.and_eq_true_iff.mp hg
    exact max_le (h.guarded_le hg I D ρ) (h'.guarded_le hg' I D ρ)
  · obtain ⟨hopen, hopen'⟩ := List.forall_mem_append.mp hopen
    intro hfalse
    have hle := (le_max_left (y I D ρ) (y' I D ρ)).trans_eq hfalse
    have hle' := (le_max_right (y I D ρ) (y' I D ρ)).trans_eq hfalse
    rcases Bool.and_eq_false_iff.mp hg with hg | hg
    · exact h.ne_false hg I D ρ hopen (le_antisymm hle (Kleene.false_le _))
    · exact h'.ne_false hg I D ρ hopen' (le_antisymm hle' (Kleene.false_le _))

/-- Conjoined at the top, whatever has happened inside. -/
theorem and (h : Placed c g tests x y) :
    Placed c true tests x (fun I D ρ => Min.min (y I D ρ) (evalCond I D c ρ)) :=
  ⟨fun I D ρ => (h.sandwiched I D ρ).and, fun _ _ _ _ => min_le_right _ _, (by cases ·)⟩

end Placed

/-- A node to which nothing has been added. -/
theorem placed_test (c : Node α) {a : Node α} : Placed c false [a]
    (fun I D ρ => evalCond I D a ρ) (fun I D ρ => evalCond I D a ρ) :=
  ⟨fun _ _ _ => .refl _ _, (by cases ·), fun _ _ _ _ hopen => hopen a (by simp)⟩

/-! ### `temp_modifier_add` -/

/-- `temp_modifier_add` on a node: its flags, and what the node becomes. -/
def Adding (table : Table) (node : Node α) : Prop :=
  ∀ context : TempContext α, context.tableToAdd = table → ∃ out,
    mutate tempModifierAdd node context = some (out, { context with
      toAdd := toAddAfter table context.toAdd node
      alreadyAdd := context.alreadyAdd || inserts table context.toAdd node }) ∧
    (inserts table context.toAdd node = false → out = node) ∧
    Placed context.constraintToAdd (guards table context.toAdd node) (testsOf node)
      (fun I D ρ => evalCond I D node ρ) (fun I D ρ => evalCond I D out ρ)

theorem mutate_term {table : Table} {a : Node α} (h : Term a) (context : TempContext α)
    (htable : context.tableToAdd = table) :
    mutate tempModifierAdd a context =
      some (a, { context with toAdd := toAddAfter table context.toAdd a }) := by
  cases h with
  | constant | scalar => rfl
  | column =>
    subst htable
    simp only [mutate, tempModifierAdd, toAddAfter]
    split <;> simp [*]

theorem mutateList_terms {table : Table} {args : List (Node α)} (h : ∀ a ∈ args, Term a)
    (context : TempContext α) (htable : context.tableToAdd = table) :
    mutateList tempModifierAdd args context =
      some (args, { context with toAdd := toAddAfterList table context.toAdd args }) := by
  induction args generalizing context with
  | nil => rfl
  | cons a args ih =>
    rw [List.forall_mem_cons] at h
    exact mutateList_cons (mutate_term h.1 context htable) (ih h.2 _ htable)

theorem adding_test {table : Table} {a : Node α} (h : Test a) : Adding table a := by
  intro context htable
  refine ⟨a, ?_, fun _ => rfl, ?_⟩
  · cases h with
    | comparison h =>
      have hrun := mutateList_terms (fun a ha => (h a ha).term) context htable
      simp [mutate, tempModifierAdd, hrun, toAddAfter, inserts]
    | nullTest h =>
      simp [mutate, tempModifierAdd, mutate_term h.term context htable, toAddAfter, inserts]
  · cases h <;> exact placed_test _

/-- On the arguments of a node, whose values are joined by AND or by OR. -/
theorem addingList {table : Table} {nodes : List (Node α)}
    (h : ∀ node ∈ nodes, Adding table node) :
    ∀ context : TempContext α, context.tableToAdd = table → ∃ outs,
      mutateList tempModifierAdd nodes context = some (outs, { context with
        toAdd := toAddAfterList table context.toAdd nodes
        alreadyAdd := context.alreadyAdd || insertsList table context.toAdd nodes }) ∧
      (insertsList table context.toAdd nodes = false → outs = nodes) ∧
      Placed context.constraintToAdd (guardsSome table context.toAdd nodes) (testsOfList nodes)
        (fun I D ρ => .conj (evalConds I D nodes ρ)) (fun I D ρ => .conj (evalConds I D outs ρ)) ∧
      Placed context.constraintToAdd (guardsAll table context.toAdd nodes) (testsOfList nodes)
        (fun I D ρ => .disj (evalConds I D nodes ρ))
        (fun I D ρ => .disj (evalConds I D outs ρ)) := by
  induction nodes with
  | nil =>
    intro context htable
    refine ⟨[], by simp [mutateList, toAddAfterList, insertsList], fun _ => rfl,
      ⟨fun _ _ _ => .refl _ _, (by cases ·), fun _ _ _ _ _ => by simp [evalConds]⟩,
      ⟨fun _ _ _ => .refl _ _, fun _ _ _ _ => Kleene.false_le _, (by cases ·)⟩⟩
  | cons node nodes ih =>
    intro context htable
    rw [List.forall_mem_cons] at h
    obtain ⟨out, hrun, hsame, hplaced⟩ := h.1 context htable
    obtain ⟨outs, hruns, hsames, hconj, hdisj⟩ := ih h.2 { context with
      toAdd := toAddAfter table context.toAdd node
      alreadyAdd := context.alreadyAdd || inserts table context.toAdd node } htable
    refine ⟨out :: outs, ?_, ?_, hplaced.min hconj, hplaced.max hdisj⟩
    · rw [mutateList_cons hrun hruns, Bool.or_assoc]
      rfl
    · rw [insertsList, Bool.or_eq_false_iff]
      rintro ⟨hnode, hnodes⟩
      rw [hsame hnode, hsames hnodes]

theorem adding {table : Table} {node : Node α} (h : Combination node) : Adding table node := by
  induction h with
  | test h => exact adding_test h
  | @or args _ _ ih =>
    intro context htable
    obtain ⟨outs, hrun, hsame, _, hdisj⟩ := addingList ih context htable
    refine ⟨.boolExpr .orExpr outs, ?_, fun hnone => by rw [hsame hnone], hdisj⟩
    simp [mutate, tempModifierAdd, hrun, toAddAfter, inserts]
  | @list elems _ ih =>
    intro context htable
    obtain ⟨outs, hrun, hsame, hconj, _⟩ := addingList ih context htable
    refine ⟨.list outs, ?_, fun hnone => by rw [hsame hnone], hconj⟩
    simp [mutate, tempModifierAdd, hrun, toAddAfter, inserts]
  | @and args _ ih =>
    intro context htable
    obtain ⟨outs, hrun, hsame, hconj, _⟩ := addingList ih context htable
    cases hadd : toAddAfterList table context.toAdd args with
    | false =>
      refine ⟨.boolExpr .andExpr outs, ?_, fun hnone => ?_, ?_⟩
      · simp [mutate, tempModifierAdd, hrun, toAddAfter, inserts, hadd]
      · rw [inserts, hadd, Bool.or_false] at hnone
        rw [hsame hnone]
      · rw [guards, hadd, Bool.or_false]
        exact hconj
    | true =>
      refine ⟨.list (outs ++ [context.constraintToAdd]), ?_, fun hnone => ?_, ?_⟩
      · simp [mutate, tempModifierAdd, hrun, toAddAfter, inserts, hadd]
      · rw [inserts, hadd, Bool.or_true] at hnone
        cases hnone
      · rw [guards, hadd, Bool.or_true]
        have hvalue : ∀ I D ρ, evalCond I D (.list (outs ++ [context.constraintToAdd])) ρ =
            Min.min (.conj (evalConds I D outs ρ)) (evalCond I D context.constraintToAdd ρ) := by
          intro I D ρ
          simp [evalCond, evalConds_eq_map, Kleene.conj_append, Kleene.le_true]
        simp only [hvalue]
        exact hconj.and

/-! ### `add_constrain` -/

section Untouched

variable {I : Interp α} {D : Database α} {ρ : Env α}

theorem conj_ne_false {nodes : List (Node α)}
    (h : ∀ a ∈ nodes, Open I D ρ (testsOf a) → evalCond I D a ρ ≠ .false)
    (hopen : Open I D ρ (testsOfList nodes)) : Kleene.conj (evalConds I D nodes ρ) ≠ .false := by
  induction nodes with
  | nil => simp [evalConds]
  | cons a nodes ih =>
    rw [List.forall_mem_cons] at h
    obtain ⟨hhead, htail⟩ := List.forall_mem_append.mp hopen
    rw [evalConds, Kleene.conj_cons]
    rcases min_choice (evalCond I D a ρ) (.conj (evalConds I D nodes ρ)) with hmin | hmin
    · exact ne_of_eq_of_ne hmin (h.1 hhead)
    · exact ne_of_eq_of_ne hmin (ih h.2 htail)

/-- A combination is not false if no test of it is. -/
theorem Combination.ne_false {node : Node α} (h : Combination node)
    (hopen : Open I D ρ (testsOf node)) : evalCond I D node ρ ≠ .false := by
  induction h with
  | @test a h =>
    have hself : testsOf a = [a] := by cases h <;> rfl
    exact hopen a (by simp [hself])
  | and _ ih => exact conj_ne_false ih hopen
  | list _ ih => exact conj_ne_false ih hopen
  | @or args hne _ ih =>
    obtain ⟨a, args, rfl⟩ := List.exists_cons_of_ne_nil hne
    obtain ⟨hhead, _⟩ := List.forall_mem_append.mp hopen
    intro hfalse
    have hle : evalCond I D a ρ ≤ .false := hfalse ▸ le_max_left _ _
    exact ih a List.mem_cons_self hhead (le_antisymm hle (Kleene.false_le _))

end Untouched

theorem placed_untouched (c : Node α) {t : Node α} (h : Combination t) :
    Placed c false (testsOf t) (fun I D ρ => evalCond I D t ρ) (fun I D ρ => evalCond I D t ρ) :=
  ⟨fun _ _ _ => .refl _ _, (by cases ·), fun _ _ _ _ => h.ne_false⟩

theorem placed_rest (c : Node α) {rel : List (Node α)} (h : ∀ t ∈ rel, Combination t) :
    Placed c false (testsOfList rel) (fun I D ρ => .conj (evalConds I D rel ρ))
      (fun I D ρ => .conj (evalConds I D rel ρ)) :=
  ⟨fun _ _ _ => .refl _ _, (by cases ·), fun _ _ _ _ => conj_ne_false fun a ha => (h a ha).ne_false⟩

/-- The loop of `add_constrain`, and the constraint at the end if it has not been added. -/
theorem addConstrainLoop_combinations {table : Table} {rel : List (Node α)}
    (h : ∀ t ∈ rel, Combination t) (c : Node α) :
    ∃ result context, addConstrainLoop rel (makeTempContext c table) = some (result, context) ∧
      context.constraintToAdd = c ∧
      Placed c (conjoins table rel) (testsOfList rel)
        (fun I D ρ => .conj (evalConds I D rel ρ))
        (fun I D ρ => .conj (evalConds I D
          (if context.alreadyAdd then result else result ++ [c]) ρ)) := by
  induction rel with
  | nil =>
    refine ⟨[], _, rfl, rfl, ?_⟩
    have hvalue : ∀ I D ρ, Kleene.conj (evalConds I D [c] ρ) =
        min (.conj (evalConds I D [] ρ)) (evalCond I D c ρ) := by
      intro I D ρ
      simp [evalConds, min_comm]
    simp only [makeTempContext, Bool.false_eq_true, if_false, List.nil_append, hvalue]
    exact (placed_rest c (by simp)).and
  | cons t rel ih =>
    rw [List.forall_mem_cons] at h
    obtain ⟨new, hrun, hsame, hplaced⟩ := adding h.1 (makeTempContext c table) rfl
    have hnew : mutate tempModifierAdd t ⟨table, c, false, false⟩ =
      some (new, ⟨table, c, toAddAfter table false t, inserts table false t⟩) := hrun
    rw [makeTempContext] at ih ⊢
    rw [conjoins]
    cases hinserts : inserts table false t with
    | true =>
      -- the constraint is somewhere inside
      have hcopy : addConstrainLoop rel ⟨table, c, toAddAfter table false t, true⟩ = _ :=
        addConstrainLoop_alreadyAdd rfl rel
      refine ⟨new :: rel, ⟨table, c, toAddAfter table false t, true⟩, ?_, rfl, ?_⟩
      · rw [hinserts] at hnew
        simp [addConstrainLoop, hnew, hcopy]
      · have hmin := hplaced.min (placed_rest c h.2)
        rw [Bool.or_false] at hmin
        exact hmin
    | false =>
      rw [hsame hinserts, hinserts] at hnew
      cases hadd : toAddAfter table false t with
      | true =>
        -- the constraint is joined to the entry
        have hcopy : addConstrainLoop rel ⟨table, c, false, true⟩ = _ :=
          addConstrainLoop_alreadyAdd rfl rel
        refine ⟨.boolExpr .andExpr [t, c] :: rel, ⟨table, c, false, true⟩, ?_, rfl, ?_⟩
        · rw [hadd] at hnew
          simp [addConstrainLoop, hnew, hcopy]
        · have hmin := ((placed_untouched c h.1).and).min (placed_rest c h.2)
          simpa [evalCond, evalConds, Kleene.le_true, testsOfList] using hmin
      | false =>
        obtain ⟨result, context, hloop, hcontext, hrest⟩ := ih h.2
        refine ⟨t :: result, context, ?_, hcontext, ?_⟩
        · rw [hadd] at hnew
          simp [addConstrainLoop, hnew, hloop]
        · have hcons : (if context.alreadyAdd then t :: result else t :: result ++ [c]) =
              t :: if context.alreadyAdd then result else result ++ [c] := by
            split <;> rfl
          rw [hcons]
          have hmin := (placed_untouched c h.1).min hrest
          rw [Bool.false_or] at hmin
          exact hmin

theorem addConstrain_combinations (table : Table) {rel : List (Node α)}
    (h : ∀ t ∈ rel, Combination t) (c : Node α) :
    ∃ rel', addConstrain rel (makeTempContext c table) = some rel' ∧
      Placed c (conjoins table rel) (testsOfList rel)
        (fun I D ρ => .conj (evalConds I D rel ρ)) (fun I D ρ => .conj (evalConds I D rel' ρ)) := by
  obtain ⟨result, context, hloop, hcontext, hplaced⟩ := addConstrainLoop_combinations h c
  cases rel with
  | nil =>
    cases hloop
    exact ⟨[c], rfl, hplaced⟩
  | cons t rel =>
    refine ⟨_, ?_, hplaced⟩
    simp only [addConstrain, hloop, hcontext, Option.bind_eq_bind, Option.bind_some]

/-- A condition on a single table. -/
structure Constrains (table : Table) (c : Node α) : Prop where
  condition : Condition c
  hasColumn : columnsOf c ≠ []
  ofTable : ∀ v ∈ columnsOf c, tableOf v = table

/-- Whatever constraint on the table is added, the conjunction of the constraints becomes the
conjunction with it, on every row. -/
def Conjoins (table : Table) (rel : List (Node α)) : Prop :=
  ∀ c, Constrains table c → ∃ rel', addConstrain rel (makeTempContext c table) = some rel' ∧
    ∀ I D ρ, Kleene.conj (evalConds I D rel' ρ) =
      min (.conj (evalConds I D rel ρ)) (evalCond I D c ρ)

/-- The null tests are true together on some row. -/
def NullTestsHold (rel : List (Node α)) : Prop :=
  ∃ ρ : Env α, ∀ test arg, .nullTest test arg ∈ testsOfList rel →
    ∀ I D, evalCond I D (.nullTest test arg) ρ = .true

theorem conjoins_of (table : Table) {rel : List (Node α)} (h : ∀ t ∈ rel, Combination t)
    (hconjoins : conjoins table rel = true) : Conjoins table rel := by
  intro c _
  obtain ⟨rel', hrel', hplaced⟩ := addConstrain_combinations table h c
  exact ⟨rel', hrel', fun I D ρ =>
    (hplaced.sandwiched I D ρ).eq_min (hplaced.guarded_le hconjoins I D ρ)⟩

theorem testsOfList_forall {nodes : List (Node α)} (h : ∀ a ∈ nodes, ∀ t ∈ testsOf a, Test t) :
    ∀ t ∈ testsOfList nodes, Test t := by
  induction nodes with
  | nil => simp [testsOfList]
  | cons a nodes ih =>
    rw [List.forall_mem_cons] at h
    rw [testsOfList, List.forall_mem_append]
    exact ⟨h.1, ih h.2⟩

theorem Combination.testsOf_test {node : Node α} (h : Combination node) :
    ∀ t ∈ testsOf node, Test t := by
  induction h with
  | @test a h =>
    have hself : testsOf a = [a] := by cases h <;> rfl
    simpa [hself] using h
  | and _ ih => exact testsOfList_forall ih
  | or _ _ ih => exact testsOfList_forall ih
  | list _ ih => exact testsOfList_forall ih

/-- There is an operator that no comparison among the tests has. -/
theorem exists_fresh (tests : List (Node α)) :
    ∃ n : Nat, ∀ (opno : Nat) args, .opExpr opno args ∈ tests → opno < n := by
  induction tests with
  | nil => exact ⟨0, by simp⟩
  | cons t tests ih =>
    obtain ⟨n, hn⟩ := ih
    cases t with
    | opExpr op as =>
      refine ⟨max n (op + 1), fun opno args hmem => ?_⟩
      rcases List.mem_cons.mp hmem with heq | hmem
      · cases heq
        exact lt_max_of_lt_right (Nat.lt_succ_self op)
      · exact lt_max_of_lt_left (hn opno args hmem)
    | _ => exact ⟨n, by simpa using hn⟩

/-- The interpretation in which one operator is false and every other one unknown. -/
def refuting (opno : Oid) : Interp α where
  test op _ := if op = opno then .false else .unknown
  apply _ _ := none

/-- With a constraint in only some disjuncts of an OR, the conjunction is not false on a row on
which the constraint is false and no comparison is known. -/
theorem conjoins_of_conjoins {varno varlevelsup : Nat} {rel : List (Node α)}
    (h : ∀ t ∈ rel, Combination t) (hnull : NullTestsHold rel)
    (hrel : Conjoins (some (varno, varlevelsup)) rel) :
    conjoins (some (varno, varlevelsup)) rel = true := by
  obtain ⟨opno, hfresh⟩ := exists_fresh (testsOfList rel)
  obtain ⟨ρ, hρ⟩ := hnull
  let c : Node α := .opExpr opno [.var ⟨varno, 1, varlevelsup⟩]
  have hc : Constrains (some (varno, varlevelsup)) c :=
    ⟨.comparison (by simpa using .column), by simp [c, columnsOf, columnsOfList],
      by simp [c, columnsOf, columnsOfList, tableOf]⟩
  let D : Database α := fun _ => []
  have hfalse : evalCond (refuting opno) D c ρ = .false := by simp [c, evalCond, refuting]
  have hopen : Open (refuting opno) D ρ (testsOfList rel) := by
    intro t ht
    cases testsOfList_forall (fun a ha => (h a ha).testsOf_test) t ht with
    | @comparison op args _ =>
      have hne : op ≠ opno := (hfresh op args ht).ne
      simp [evalCond, refuting, hne]
    | nullTest _ =>
      rw [hρ _ _ ht]
      decide
  obtain ⟨rel', hadd, heq⟩ := hrel c hc
  obtain ⟨rel'', hadd', hplaced⟩ := addConstrain_combinations (some (varno, varlevelsup)) h c
  obtain rfl : rel' = rel'' := Option.some.inj (hadd.symm.trans hadd')
  by_contra hnot
  rw [Bool.not_eq_true] at hnot
  apply hplaced.ne_false hnot (refuting opno) D ρ hopen
  rw [heq, hfalse]
  exact min_eq_right (Kleene.false_le _)

/-- `add_constrain` conjoins a constraint if the first of the earlier ones with a column of its
table does not take it into some disjuncts of an OR only; and, unless the null tests among the
earlier ones contradict each other, only then. -/
theorem addConstrain_conjoins (varno varlevelsup : Nat) {rel : List (Node α)}
    (h : ∀ t ∈ rel, Combination t) :
    (conjoins (some (varno, varlevelsup)) rel = true →
      Conjoins (some (varno, varlevelsup)) rel) ∧
    (NullTestsHold rel → Conjoins (some (varno, varlevelsup)) rel →
      conjoins (some (varno, varlevelsup)) rel = true) :=
  ⟨conjoins_of _ h, conjoins_of_conjoins h⟩

/-- `s.a IS NULL`, and `(r.a = 1 AND r.b = 2) OR (r.a = 3 AND r.b = 4)` -/
def eachDisjunct : List (Node Int) :=
  [.nullTest .isNull (.var ⟨2, 1, 0⟩),
    .boolExpr .orExpr [
      .boolExpr .andExpr [.opExpr 96 [.var ⟨1, 1, 0⟩, .const (some 1)],
        .opExpr 96 [.var ⟨1, 2, 0⟩, .const (some 2)]],
      .boolExpr .andExpr [.opExpr 96 [.var ⟨1, 1, 0⟩, .const (some 3)],
        .opExpr 96 [.var ⟨1, 2, 0⟩, .const (some 4)]]]]

theorem eachDisjunct_combination : ∀ t ∈ eachDisjunct, Combination t := by
  have hequal : ∀ v (c : Int), Combination (.opExpr 96 [.var v, .const (some c)]) :=
    fun v c => .test (.comparison (by simpa using ⟨.column, .constant⟩))
  simp only [eachDisjunct, List.forall_mem_cons, List.not_mem_nil, false_imp_iff, implies_true,
    and_true]
  refine ⟨.test (.nullTest .column), .or (by simp) ?_⟩
  simp only [List.forall_mem_cons, List.not_mem_nil, false_imp_iff, implies_true, and_true]
  exact ⟨.and (by simpa using ⟨hequal _ _, hequal _ _⟩),
    .and (by simpa using ⟨hequal _ _, hequal _ _⟩)⟩

theorem addConstrain_conjoins_eachDisjunct :
    conjoins (some (1, 0)) eachDisjunct = true ∧
    (conjoins (some (1, 0)) eachDisjunct = true → Conjoins (some (1, 0)) eachDisjunct) ∧
    (NullTestsHold eachDisjunct → Conjoins (some (1, 0)) eachDisjunct →
      conjoins (some (1, 0)) eachDisjunct = true) :=
  ⟨by decide +kernel, addConstrain_conjoins 1 0 eachDisjunct_combination⟩

/-- To `(r.a = 1 AND r.b = 2) OR r.a = 3` the constraint `r.b = 5` is added: on the row `(3, 4)` the
result is true. -/
theorem addConstrain_conjoins_fails :
    ∃ rel', addConstrain [.boolExpr .orExpr [
          .boolExpr .andExpr [.opExpr 96 [.var ⟨1, 1, 0⟩, .const (some (1 : Int))],
            .opExpr 96 [.var ⟨1, 2, 0⟩, .const (some 2)]],
          .opExpr 96 [.var ⟨1, 1, 0⟩, .const (some 3)]]]
        (makeTempContext (.opExpr 96 [.var ⟨1, 2, 0⟩, .const (some 5)]) (some (1, 0))) =
          some rel' ∧
      Kleene.conj (evalConds intInterp (fun _ => []) rel' ⟨[[(1, [some 3, some 4])]], []⟩) = .true ∧
      evalCond intInterp (fun _ => []) (.opExpr 96 [.var ⟨1, 2, 0⟩, .const (some 5)])
        ⟨[[(1, [some 3, some 4])]], []⟩ = .false :=
  ⟨_, rfl, by decide +kernel, by decide +kernel⟩

end Infed.Self
