import Infed.Self.Moved

/-! What a constraint was in the WHERE: a conjunct, or a part below a NOT or inside an OR; and a
condition about one table, or about several. -/

namespace Infed.Self

variable {α : Type}

/-! ### Places in the WHERE -/

/-- The part of a condition that a path of argument positions leads to. -/
def argAt : List Nat → Node α → Option (Node α)
  | [], node => some node
  | i :: path, .boolExpr _ args => args[i]?.bind (argAt path)
  | _, _ => none

/-- The path leads through ANDs only. -/
def throughAnds : List Nat → Node α → Bool
  | [], _ => true
  | i :: path, .boolExpr .andExpr args => args[i]?.elim false (throughAnds path)
  | _, _ => false

/-- In `out`, NULL stands in the place of the part `target` of `node`. -/
structure DeletedAt (path : List Nat) (target node out : Node α) : Prop where
  before : argAt path node = some target
  notNull : target ≠ .null
  behind : argAt path out = some .null

theorem stripList_getElem? (s : Option Inside) (args : List (Node α)) (i : Nat) :
    (stripList s args)[i]? = args[i]?.map (strip (afterList s (args.take i))) := by
  induction args generalizing s i with
  | nil => simp [stripList]
  | cons a args ih =>
    cases i with
    | zero => rfl
    | succ i => simpa [stripList, afterList] using ih (after s a) i

/-- Below an AND, OR or NOT that stays. -/
theorem deletedAt_boolExpr {path : List Nat} {target : Node α} {boolop : BoolExprType}
    {s : Option Inside} {args : List (Node α)} :
    DeletedAt path target (.boolExpr boolop args) (.boolExpr boolop (stripList s args)) ↔
      ∃ i a rest, path = i :: rest ∧ args[i]? = some a ∧
        DeletedAt rest target a (strip (afterList s (args.take i)) a) := by
  constructor
  · rintro ⟨hbefore, hne, hbehind⟩
    cases path with
    | nil => simp [argAt] at hbehind
    | cons i rest =>
      rw [argAt, Option.bind_eq_some_iff] at hbefore hbehind
      obtain ⟨a, ha, hrest⟩ := hbefore
      obtain ⟨b, hb, hrest'⟩ := hbehind
      rw [stripList_getElem?, ha, Option.map_some, Option.some.injEq] at hb
      subst hb
      exact ⟨i, a, rest, rfl, ha, hrest, hne, hrest'⟩
  · rintro ⟨i, a, rest, rfl, ha, hrest, hne, hrest'⟩
    refine ⟨by rw [argAt, ha, Option.bind_some, hrest], hne, ?_⟩
    rw [argAt, stripList_getElem?, ha, Option.map_some, Option.bind_some, hrest']

/-- A node that is taken out as a whole. -/
theorem deletedAt_null {path : List Nat} {target node : Node α} (hne : node ≠ .null) :
    DeletedAt path target node .null ↔ path = [] ∧ target = node := by
  constructor
  · rintro ⟨hbefore, _, hbehind⟩
    cases path with
    | nil => exact ⟨rfl, (Option.some.inj hbefore).symm⟩
    | cons i path => simp [argAt] at hbehind
  · rintro ⟨rfl, rfl⟩
    exact ⟨rfl, hne, rfl⟩

theorem movedList_eq_nil {args : List (Node α)} {i : Inside}
    (h : ∀ a ∈ args, ∀ i, hasOr a = false → moved (some i) a = []) (hor : hasOrList args = false) :
    movedList (some i) args = [] := by
  induction args generalizing i with
  | nil => rfl
  | cons a args ih =>
    rw [List.forall_mem_cons] at h
    rw [hasOrList, Bool.or_eq_false_iff] at hor
    rw [movedList, h.1 i hor.1, after, if_neg (by simp [hor.1]), Option.map_some, ih h.2 hor.2]
    rfl

/-- Inside an OR, nothing is taken out until an inner OR has been left. -/
theorem moved_eq_nil {node : Node α} (h : Condition node) (i : Inside) (hor : hasOr node = false) :
    moved (some i) node = [] := by
  induction h generalizing i with
  | comparison _ => simp [moved]
  | nullTest _ => simp [moved]
  | exist => rfl
  | @bool boolop args _ ih =>
    cases boolop with
    | orExpr => cases hor
    | andExpr | notExpr => exact movedList_eq_nil (fun a ha i => ih a ha i) hor

theorem mem_movedList {args : List (Node α)} {t : Node α}
    (h : ∀ a ∈ args, ∀ s, t ∈ moved s a ↔ ∃ path, DeletedAt path t a (strip s a))
    (s : Option Inside) :
    t ∈ movedList s args ↔ ∃ i a path, args[i]? = some a ∧
      DeletedAt path t a (strip (afterList s (args.take i)) a) := by
  induction args generalizing s with
  | nil => simp [movedList]
  | cons a args ih =>
    rw [List.forall_mem_cons] at h
    rw [movedList, List.mem_append, h.1 s, ih h.2]
    constructor
    · rintro (⟨path, hpath⟩ | ⟨i, b, path, hb, hpath⟩)
      · exact ⟨0, a, path, rfl, hpath⟩
      · exact ⟨i + 1, b, path, hb, hpath⟩
    · rintro ⟨i, b, path, hb, hpath⟩
      cases i with
      | zero =>
        cases hb
        exact .inl ⟨path, hpath⟩
      | succ i => exact .inr ⟨i, b, path, hb, hpath⟩

/-- The nodes that become constraints are those that NULL stands for. -/
theorem mem_moved {node t : Node α} (h : Condition node) (s : Option Inside) :
    t ∈ moved s node ↔ ∃ path, DeletedAt path t node (strip s node) := by
  have hatom : ∀ (node : Node α) (b : Bool), node ≠ .null →
      (∀ i path, argAt (i :: path) node = none) →
      (t ∈ (if b then [node] else []) ↔
        ∃ path, DeletedAt path t node (if b then .null else node)) := by
    intro node b hne hargs
    cases b with
    | true => simp [deletedAt_null hne]
    | false =>
      simp only [Bool.false_eq_true, if_false, List.not_mem_nil, false_iff, not_exists]
      rintro (_ | ⟨i, path⟩) ⟨hbefore, hnull, hbehind⟩
      · exact hne (Option.some.inj hbehind)
      · rw [hargs] at hbefore
        cases hbefore
  have hbelow : ∀ (boolop : BoolExprType) (args : List (Node α)) (s : Option Inside),
      (∃ path, DeletedAt path t (.boolExpr boolop args) (.boolExpr boolop (stripList s args))) ↔
        ∃ i a path, args[i]? = some a ∧
          DeletedAt path t a (strip (afterList s (args.take i)) a) := by
    intro boolop args s
    simp only [deletedAt_boolExpr]
    constructor
    · rintro ⟨_, i, a, path, _, ha, hdel⟩
      exact ⟨i, a, path, ha, hdel⟩
    · rintro ⟨i, a, path, ha, hdel⟩
      exact ⟨_, i, a, path, rfl, ha, hdel⟩
  induction h generalizing s with
  | comparison _ => exact hatom _ _ (by simp) fun _ _ => rfl
  | nullTest _ => exact hatom _ _ (by simp) fun _ _ => rfl
  | exist => exact hatom _ false (by simp) fun _ _ => rfl
  | @bool boolop args hargs ih =>
    cases boolop with
    | andExpr | notExpr => rw [moved, strip, hbelow, mem_movedList ih] <;> simp
    | orExpr =>
      rw [moved, strip]
      by_cases htakes : takesOr s args = true
      · have hor : hasOrList args = false := by
          rw [takesOr, Bool.and_eq_true, Bool.not_eq_true'] at htakes
          exact htakes.1
        rw [movedList_eq_nil (fun a ha i => moved_eq_nil (hargs a ha) i) hor, htakes]
        simp [deletedAt_null]
      · rw [if_neg htakes, if_neg htakes, List.append_nil, mem_movedList ih, hbelow]

/-! ### Only conjuncts -/

mutual

/-- Below each NOT and inside each OR that is reached through ANDs, nothing is taken out. -/
def onlyConjuncts : Node α → Bool
  | .boolExpr .andExpr args => onlyConjunctsList args
  | .boolExpr .orExpr args => (movedList (some ⟨false, []⟩) args).isEmpty
  | .boolExpr .notExpr args => (movedList none args).isEmpty
  | _ => true

def onlyConjunctsList : List (Node α) → Bool
  | [] => true
  | node :: nodes => onlyConjuncts node && onlyConjunctsList nodes

end

theorem onlyConjunctsList_iff {args : List (Node α)} :
    onlyConjunctsList args = true ↔ ∀ (i : Nat) a, args[i]? = some a → onlyConjuncts a = true := by
  induction args with
  | nil => simp [onlyConjunctsList]
  | cons a args ih =>
    rw [onlyConjunctsList, Bool.and_eq_true, ih]
    constructor
    · rintro ⟨hhead, htail⟩ i b hb
      cases i with
      | zero => exact Option.some.inj hb ▸ hhead
      | succ i => exact htail i b hb
    · exact fun h => ⟨h 0 a rfl, fun i b hb => h (i + 1) b hb⟩

/-- Below a NOT or an OR that stays, no path leads through ANDs only. -/
theorem notThroughAnds_iff {boolop : BoolExprType} (hop : boolop ≠ .andExpr) {s : Option Inside}
    {args : List (Node α)} (h : ∀ a ∈ args, Condition a) :
    (∀ path t, DeletedAt path t (.boolExpr boolop args) (.boolExpr boolop (stripList s args)) →
      throughAnds path (.boolExpr boolop args) = true) ↔ movedList s args = [] := by
  rw [List.eq_nil_iff_forall_not_mem]
  constructor
  · intro hall t ht
    rw [mem_movedList fun a ha s => mem_moved (h a ha) s] at ht
    obtain ⟨i, a, path, ha, hdel⟩ := ht
    have hthrough := hall (i :: path) t (deletedAt_boolExpr.mpr ⟨i, a, path, rfl, ha, hdel⟩)
    cases boolop with
    | andExpr => exact hop rfl
    | orExpr | notExpr => cases hthrough
  · intro hnone path t hdel
    obtain ⟨i, a, rest, _, ha, hrest⟩ := deletedAt_boolExpr.mp hdel
    have hmem := (mem_movedList (fun a ha s => mem_moved (h a ha) s) s).mpr ⟨i, a, rest, ha, hrest⟩
    exact absurd hmem (hnone t)

theorem throughAnds_iff {node : Node α} (h : Condition node) :
    (∀ path t, DeletedAt path t node (strip none node) → throughAnds path node = true) ↔
      onlyConjuncts node = true := by
  have hroot : ∀ node : Node α, (∀ i rest, argAt (i :: rest) node = none) →
      ∀ path t, DeletedAt path t node (strip none node) → throughAnds path node = true := by
    rintro node hargs (_ | ⟨i, rest⟩) t hdel
    · rw [throughAnds]
    · cases (hargs i rest).symm.trans hdel.before
  induction h with
  | comparison _ => exact iff_of_true (hroot _ fun _ _ => rfl) rfl
  | nullTest _ => exact iff_of_true (hroot _ fun _ _ => rfl) rfl
  | exist => exact iff_of_true (hroot _ fun _ _ => rfl) rfl
  | @bool boolop args hargs ih =>
    cases boolop with
    | andExpr =>
      rw [onlyConjuncts, onlyConjunctsList_iff]
      have hstrip : strip none (.boolExpr .andExpr args) =
          .boolExpr .andExpr (stripList none args) := rfl
      simp only [hstrip, deletedAt_boolExpr, afterList_none]
      constructor
      · intro hall i a ha
        refine (ih a (List.mem_of_getElem? ha)).mp ?_
        intro path t hdel
        have hpath := hall (i :: path) t ⟨i, a, path, rfl, ha, hdel⟩
        rwa [throughAnds, ha, Option.elim_some] at hpath
      · rintro hall _ t ⟨i, a, path, rfl, ha, hdel⟩
        rw [throughAnds, ha, Option.elim_some]
        exact (ih a (List.mem_of_getElem? ha)).mpr (hall i a ha) path t hdel
    | notExpr =>
      rw [onlyConjuncts, List.isEmpty_iff]
      exact notThroughAnds_iff (by simp) hargs
    | orExpr =>
      rw [onlyConjuncts, List.isEmpty_iff, strip]
      by_cases htakes : takesOr none args = true
      · -- the OR goes as a whole, and nothing of it has gone before
        have hor : hasOrList args = false := by
          rw [takesOr, Bool.and_eq_true, Bool.not_eq_true'] at htakes
          exact htakes.1
        rw [if_pos htakes]
        refine iff_of_true (fun path t hdel => ?_)
          (movedList_eq_nil (fun a ha i => moved_eq_nil (hargs a ha) i) hor)
        obtain ⟨rfl, _⟩ := (deletedAt_null (by simp)).mp hdel
        rfl
      · rw [if_neg htakes]
        exact notThroughAnds_iff (by simp) hargs

/-- What is taken out of the WHERE and becomes a constraint on FROM is a conjunct exactly if no NOT
and no OR that is reached through ANDs has a part that is taken out. -/
theorem onlyConjuncts_iff {quals : Node α} (h : Condition quals) :
    ∃ out context taken, mutate myModifierSelf quals makeContextOptimizerSelf =
        some (out, context) ∧
      addConstraints [] taken = some context.alreadyConstrainRel ∧
      (∀ t, t ∈ taken ↔ ∃ path, DeletedAt path t quals out) ∧
      ((∀ path t, DeletedAt path t quals out → throughAnds path quals = true) ↔
        onlyConjuncts quals = true) := by
  obtain ⟨context, hrun, hadd⟩ := myModifierSelf_condition h
  exact ⟨_, context, _, hrun, hadd, fun t => mem_moved h none, throughAnds_iff h⟩

/-- `r.a = 1 AND (r.b = 2 OR s.a = 3) AND NOT (s.a = r.a OR r.b IS NULL)` -/
def plain : Node Int :=
  .boolExpr .andExpr [.opExpr 96 [.var ⟨1, 1, 0⟩, .const (some 1)],
    .boolExpr .orExpr [.opExpr 96 [.var ⟨1, 2, 0⟩, .const (some 2)],
      .opExpr 96 [.var ⟨2, 1, 0⟩, .const (some 3)]],
    .boolExpr .notExpr [.boolExpr .orExpr [.opExpr 96 [.var ⟨2, 1, 0⟩, .var ⟨1, 1, 0⟩],
      .nullTest .isNull (.var ⟨1, 2, 0⟩)]]]

theorem plain_condition : Condition plain := by
  have hand : ∀ (a b c : Node Int), Condition a → Condition b → Condition c →
      Condition (.boolExpr .andExpr [a, b, c]) :=
    fun a b c ha hb hc => .bool (by simpa using ⟨ha, hb, hc⟩)
  have hor : ∀ (a b : Node Int), Condition a → Condition b → Condition (.boolExpr .orExpr [a, b]) :=
    fun a b ha hb => .bool (by simpa using ⟨ha, hb⟩)
  have hcompare : ∀ (a b : Node Int), Term a → Term b → Condition (.opExpr 96 [a, b]) :=
    fun a b ha hb => .comparison (by simpa using ⟨ha, hb⟩)
  refine hand _ _ _ (hcompare _ _ .column .constant)
    (hor _ _ (hcompare _ _ .column .constant) (hcompare _ _ .column .constant)) (.bool ?_)
  simpa using hor _ _ (hcompare _ _ .column .column) (.nullTest .column)

theorem onlyConjuncts_iff_plain :
    onlyConjuncts plain = true ∧
    ∃ out context taken, mutate myModifierSelf plain makeContextOptimizerSelf =
        some (out, context) ∧
      addConstraints [] taken = some context.alreadyConstrainRel ∧
      (∀ t, t ∈ taken ↔ ∃ path, DeletedAt path t plain out) ∧
      ((∀ path t, DeletedAt path t plain out → throughAnds path plain = true) ↔
        onlyConjuncts plain = true) :=
  ⟨by decide +kernel, onlyConjuncts_iff plain_condition⟩

/-- `NOT (r.a = 1)` becomes NOT NULL with the constraint `r.a = 1`; and of
`(r.a = 1 OR s.a = 2) OR r.b = 3` the last comparison is taken out. -/
theorem onlyConjuncts_fails :
    (∃ context, mutate myModifierSelf (.boolExpr .notExpr [.opExpr 96 [.var ⟨1, 1, 0⟩,
        .const (some (1 : Int))]]) makeContextOptimizerSelf =
          some (.boolExpr .notExpr [.null], context) ∧
      context.alreadyConstrainRel = [.opExpr 96 [.var ⟨1, 1, 0⟩, .const (some 1)]]) ∧
    ∃ context, mutate myModifierSelf (.boolExpr .orExpr [
        .boolExpr .orExpr [.opExpr 96 [.var ⟨1, 1, 0⟩, .const (some (1 : Int))],
          .opExpr 96 [.var ⟨2, 1, 0⟩, .const (some 2)]],
        .opExpr 96 [.var ⟨1, 2, 0⟩, .const (some 3)]]) makeContextOptimizerSelf =
          some (.boolExpr .orExpr [
            .boolExpr .orExpr [.opExpr 96 [.var ⟨1, 1, 0⟩, .const (some 1)],
              .opExpr 96 [.var ⟨2, 1, 0⟩, .const (some 2)]],
            .null], context) ∧
      context.alreadyConstrainRel = [.opExpr 96 [.var ⟨1, 2, 0⟩, .const (some 3)]] :=
  ⟨⟨_, rfl, rfl⟩, ⟨_, rfl, rfl⟩⟩

/-! ### One table -/

/-- A comparison or a null test of columns and constants. -/
inductive Test : Node α → Prop where
  | comparison {opno args} : (∀ a ∈ args, Leaf a) → Test (.opExpr opno args)
  | nullTest {test arg} : Leaf arg → Test (.nullTest test arg)

/-- A conjunct that is a comparison, a null test, or an OR of those. -/
inductive Clause : Node α → Prop where
  | test {a} : Test a → Clause a
  | or {args} : (∀ a ∈ args, Test a) → Clause (.boolExpr .orExpr args)

theorem Test.condition {a : Node α} (h : Test a) : Condition a := by
  cases h with
  | comparison hargs => exact .comparison fun a ha => (hargs a ha).term
  | nullTest harg => exact .nullTest harg.term

theorem Clause.condition {a : Node α} (h : Clause a) : Condition a := by
  cases h with
  | test h => exact h.condition
  | or h => exact .bool fun a ha => (h a ha).condition

/-- The condition has columns, and they are all of one table. -/
def OneTable (node : Node α) : Prop :=
  columnsOf node ≠ [] ∧ ∀ v ∈ columnsOf node, ∀ w ∈ columnsOf node, tableOf v = tableOf w

/-- The last column is of the table of the first one, but there are columns of two tables. -/
def ComesBack (node : Node α) : Prop :=
  takes node = true ∧ ∃ v ∈ columnsOf node, ∃ w ∈ columnsOf node, tableOf v ≠ tableOf w

theorem OneTable.takes {node : Node α} (h : OneTable node) : takes node = true := by
  obtain ⟨hne, hsame⟩ := h
  rw [Self.takes]
  cases hcolumns : columnsOf node with
  | nil => exact absurd hcolumns hne
  | cons v vs =>
    rw [hcolumns] at hsame
    simpa [verdict] using hsame _ List.getLastD_mem_cons v List.mem_cons_self

theorem oneTable_iff {node : Node α} (h : takes node = true) : OneTable node ↔ ¬ComesBack node := by
  constructor
  · rintro ⟨_, hsame⟩ ⟨_, v, hv, w, hw, hne⟩
    exact hne (hsame v hv w hw)
  · intro hnot
    refine ⟨fun hnil => ?_, fun v hv w hw => ?_⟩
    · rw [takes, hnil] at h
      cases h
    · by_contra hne
      exact hnot ⟨h, v, hv, w, hw, hne⟩

theorem hasOrList_tests {args : List (Node α)} (h : ∀ a ∈ args, Test a) :
    hasOrList args = false := by
  induction args with
  | nil => rfl
  | cons a args ih =>
    rw [List.forall_mem_cons] at h
    rw [hasOrList, ih h.2, Bool.or_false]
    cases h.1 <;> rfl

theorem stripList_tests {args : List (Node α)} (h : ∀ a ∈ args, Test a) (i : Inside) :
    stripList (some i) args = args := by
  induction args generalizing i with
  | nil => rfl
  | cons a args ih =>
    rw [List.forall_mem_cons] at h
    have hafter : ∃ i', after (some i) a = some i' := by
      cases h.1 <;> exact ⟨_, rfl⟩
    obtain ⟨i', hi'⟩ := hafter
    rw [stripList, hi', ih h.2]
    cases h.1 <;> rfl

/-- A conjunct is taken out or stays as it is. -/
theorem Clause.strip_eq {a : Node α} (h : Clause a) :
    strip none a = if takes a then .null else a := by
  cases h with
  | test h => cases h <;> rfl
  | or h =>
    rw [strip, stripList_tests h, takesOr, hasOrList_tests h]
    rfl

theorem Clause.moved_eq {a : Node α} (h : Clause a) :
    moved none a = if takes a then [a] else [] := by
  cases h with
  | test h => cases h <;> rfl
  | or h =>
    have hnone := movedList_eq_nil (i := ⟨false, []⟩)
      (fun a ha i => moved_eq_nil (h a ha).condition i) (hasOrList_tests h)
    rw [moved, takesOr, hasOrList_tests h, flag, hnone]
    rfl

theorem stripList_clauses {args : List (Node α)} (h : ∀ a ∈ args, Clause a) :
    stripList none args = args.map fun a => if takes a then .null else a := by
  induction args with
  | nil => rfl
  | cons a args ih =>
    rw [List.forall_mem_cons] at h
    rw [stripList, after_none, h.1.strip_eq, ih h.2, List.map_cons]

theorem movedList_clauses {args : List (Node α)} (h : ∀ a ∈ args, Clause a) :
    movedList none args = args.filter takes := by
  induction args with
  | nil => rfl
  | cons a args ih =>
    rw [List.forall_mem_cons] at h
    rw [movedList, after_none, h.1.moved_eq, ih h.2, List.filter_cons]
    split <;> rfl

/-- In a WHERE that is an AND of comparisons, null tests and ORs of those, the conjuncts that become
constraints are those of one table, exactly if no conjunct comes back to its first table after a
column of another. -/
theorem moved_oneTable_iff {args : List (Node α)} (h : ∀ a ∈ args, Clause a) :
    ∃ takesOut context, mutate myModifierSelf (.boolExpr .andExpr args) makeContextOptimizerSelf =
        some (.boolExpr .andExpr (args.map fun a => if takesOut a then .null else a), context) ∧
      addConstraints [] (args.filter takesOut) = some context.alreadyConstrainRel ∧
      ((∀ a ∈ args, takesOut a = true ↔ OneTable a) ↔ ∀ a ∈ args, ¬ComesBack a) := by
  have hcondition : Condition (.boolExpr .andExpr args) := .bool fun a ha => (h a ha).condition
  obtain ⟨context, hrun, hadd⟩ := myModifierSelf_condition hcondition
  refine ⟨takes, context, ?_, ?_, ?_⟩
  · rw [hrun, strip, stripList_clauses h]
    simp
  · rwa [moved, movedList_clauses h] at hadd
    simp
  · refine forall₂_congr fun a ha => ?_
    cases htakes : takes a with
    | true => simpa using oneTable_iff htakes
    | false =>
      refine iff_of_true ?_ fun hback => ?_
      · refine iff_of_false (by simp) fun hone => ?_
        rw [hone.takes] at htakes
        cases htakes
      · rw [hback.1] at htakes
        cases htakes

/-- `r.a = 1`, `r.a = s.b`, and `r.a IS NULL OR r.b = 2` -/
def clauses : List (Node Int) :=
  [.opExpr 96 [.var ⟨1, 1, 0⟩, .const (some 1)], .opExpr 96 [.var ⟨1, 1, 0⟩, .var ⟨2, 2, 0⟩],
    .boolExpr .orExpr [.nullTest .isNull (.var ⟨1, 1, 0⟩),
      .opExpr 96 [.var ⟨1, 2, 0⟩, .const (some 2)]]]

theorem clauses_clause : ∀ a ∈ clauses, Clause a := by
  have hcompare : ∀ (a b : Node Int), Leaf a → Leaf b → Test (.opExpr 96 [a, b]) :=
    fun a b ha hb => .comparison (by simpa using ⟨ha, hb⟩)
  simp only [clauses, List.forall_mem_cons, List.not_mem_nil, false_imp_iff, implies_true, and_true]
  refine ⟨.test (hcompare _ _ .column .constant), .test (hcompare _ _ .column .column), .or ?_⟩
  simpa using ⟨.nullTest .column, hcompare _ _ .column .constant⟩

theorem moved_oneTable_iff_clauses :
    (∀ a ∈ clauses, Clause a) ∧
    ∃ takesOut context, mutate myModifierSelf (.boolExpr .andExpr clauses)
        makeContextOptimizerSelf =
          some (.boolExpr .andExpr (clauses.map fun a => if takesOut a then .null else a),
            context) ∧
      addConstraints [] (clauses.filter takesOut) = some context.alreadyConstrainRel ∧
      ((∀ a ∈ clauses, takesOut a = true ↔ OneTable a) ↔ ∀ a ∈ clauses, ¬ComesBack a) :=
  ⟨clauses_clause, moved_oneTable_iff clauses_clause⟩

/-- `s.b IS NULL OR r.a = s.b` -/
def comingBack : Node Int :=
  .boolExpr .orExpr [.nullTest .isNull (.var ⟨2, 2, 0⟩),
    .opExpr 96 [.var ⟨1, 1, 0⟩, .var ⟨2, 2, 0⟩]]

/-- A condition on two tables is taken out. -/
theorem moved_oneTable_fails :
    (∃ context, mutate myModifierSelf (.boolExpr .andExpr [comingBack]) makeContextOptimizerSelf =
        some (.boolExpr .andExpr [.null], context) ∧
      context.alreadyConstrainRel = [comingBack]) ∧ ¬OneTable comingBack := by
  refine ⟨⟨_, rfl, rfl⟩, fun hone => ?_⟩
  have hsame := hone.2 ⟨2, 2, 0⟩ (by decide) ⟨1, 1, 0⟩ (by decide)
  cases hsame

end Infed.Self
