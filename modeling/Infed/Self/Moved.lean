import Infed.Self.Pass

/-! Which parts of a WHERE `my_modifier_self` takes out.  Its flags depend on where it is: outside
every OR a comparison or null test is judged by its own columns, and inside an OR the flag `add`
goes on with the columns since the OR was entered, until an inner OR is left, which ends the
disjunction for the rest of the outer one.  NOT changes nothing. -/

namespace Infed.Self

variable {α : Type}

/-! ### Conditions -/

/-- A column or a constant. -/
inductive Leaf : Node α → Prop where
  | column {v} : Leaf (.var v)
  | constant {c} : Leaf (.const c)

/-- A column, a constant, or the value of a sub-select. -/
inductive Term : Node α → Prop where
  | column {v} : Term (.var v)
  | constant {c} : Term (.const c)
  | scalar {targetList rtable fromlist quals} :
    Term (.subLink .exprSublink .null (.query targetList rtable fromlist quals))

theorem Leaf.mapColumns (f : Var → Var) {a : Node α} (h : Leaf a) :
    Leaf (Infed.mapColumns f a) := by
  cases h with
  | column => exact .column
  | constant => exact .constant

theorem Leaf.term {a : Node α} (h : Leaf a) : Term a := by
  cases h with
  | column => exact .column
  | constant => exact .constant

theorem Term.mapColumns (f : Var → Var) {a : Node α} (h : Term a) :
    Term (Infed.mapColumns f a) := by
  cases h with
  | column => exact .column
  | constant => exact .constant
  | scalar => exact .scalar

/-- A WHERE condition: AND, OR and NOT over comparisons, null tests and EXISTS. -/
inductive Condition : Node α → Prop where
  | comparison {opno args} : (∀ a ∈ args, Term a) → Condition (.opExpr opno args)
  | nullTest {test arg} : Term arg → Condition (.nullTest test arg)
  | exist {targetList rtable fromlist quals} :
    Condition (.subLink .existsSublink .null (.query targetList rtable fromlist quals))
  | bool {boolop args} : (∀ a ∈ args, Condition a) → Condition (.boolExpr boolop args)

mutual

/-- The condition has an OR, outside its sub-selects. -/
def hasOr : Node α → Bool
  | .boolExpr .orExpr _ => true
  | .boolExpr _ args => hasOrList args
  | _ => false

def hasOrList : List (Node α) → Bool
  | [] => false
  | node :: nodes => hasOr node || hasOrList nodes

end

/-! ### Where the traversal is -/

/-- The flag `add` after these columns: what the last one says, which is compared with the first
one. -/
def verdict (add : Bool) : List Var → Bool
  | [] => add
  | v :: vs => tableOf (vs.getLastD v) == tableOf v

theorem verdict_snoc (add : Bool) (seen : List Var) (v : Var) :
    verdict add (seen ++ [v]) = !Table.differs (seen.head?.bind tableOf) v := by
  cases seen with
  | nil => simp [verdict, Table.differs]
  | cons u us =>
    have hsome : (tableOf u).isSome = true := rfl
    simp [verdict, Table.differs, hsome, bne, Bool.beq_comm]

/-- A place inside an OR: the flag `add` when the OR was entered, and the columns seen since. -/
structure Inside where
  add : Bool
  seen : List Var

/-- The flag `add`; it is cleared outside every OR. -/
def flag : Option Inside → Bool
  | none => false
  | some i => verdict i.add i.seen

/-- The place after a condition. -/
def after (s : Option Inside) (node : Node α) : Option Inside :=
  if hasOr node then none else s.map fun i => { i with seen := i.seen ++ columnsOf node }

def afterList (s : Option Inside) (nodes : List (Node α)) : Option Inside := nodes.foldl after s

/-- The flags of `my_modifier_self` at a place. -/
structure At (s : Option Inside) (context : ContextOptimizerSelf α) : Prop where
  disjunction : context.disjunction = s.isSome
  equality : context.equality = false
  add : context.add = flag s
  tableToAddOr : ∀ i, s = some i → context.tableToAddOr = i.seen.head?.bind tableOf
  tableToAddEq : context.tableToAddEq = none

theorem afterList_eq (s : Option Inside) (nodes : List (Node α)) : afterList s nodes =
    if hasOrList nodes then none
    else s.map fun i => { i with seen := i.seen ++ columnsOfList nodes } := by
  induction nodes generalizing s with
  | nil => cases s <;> simp [afterList, hasOrList, columnsOfList]
  | cons node nodes ih =>
    have hcons : afterList s (node :: nodes) = afterList (after s node) nodes := rfl
    rw [hcons, ih, after, hasOrList, columnsOfList]
    cases hasOr node <;> cases hasOrList nodes <;> cases s <;> simp

@[simp] theorem after_none (node : Node α) : after none node = none := by
  simp [after]

@[simp] theorem afterList_none (nodes : List (Node α)) : afterList none nodes = none := by
  simp [afterList_eq]

/-! ### What is taken out -/

/-- Outside every OR, the condition is taken out if its last column is of the table of its first
one. -/
def takes (node : Node α) : Bool := verdict false (columnsOf node)

/-- At a place, an OR is taken out if it has no inner OR and its last column says so. -/
def takesOr (s : Option Inside) (args : List (Node α)) : Bool :=
  !hasOrList args && verdict (flag s) (columnsOfList args)

mutual

/-- The nodes that become constraints, in the order in which they do. -/
def moved : Option Inside → Node α → List (Node α)
  | s, .opExpr opno args =>
    if s.isNone && takes (.opExpr opno args) then [.opExpr opno args] else []
  | s, .nullTest test arg =>
    if s.isNone && takes (.nullTest test arg) then [.nullTest test arg] else []
  | s, .boolExpr .orExpr args =>
    movedList (some ⟨flag s, []⟩) args ++ if takesOr s args then [.boolExpr .orExpr args] else []
  | s, .boolExpr _ args => movedList s args
  | _, _ => []

def movedList : Option Inside → List (Node α) → List (Node α)
  | _, [] => []
  | s, node :: nodes => moved s node ++ movedList (after s node) nodes

end

mutual

/-- The condition with NULL for what becomes a constraint. -/
def strip : Option Inside → Node α → Node α
  | s, .opExpr opno args =>
    if s.isNone && takes (.opExpr opno args) then .null else .opExpr opno args
  | s, .nullTest test arg =>
    if s.isNone && takes (.nullTest test arg) then .null else .nullTest test arg
  | s, .boolExpr .orExpr args =>
    if takesOr s args then .null else .boolExpr .orExpr (stripList (some ⟨flag s, []⟩) args)
  | s, .boolExpr boolop args => .boolExpr boolop (stripList s args)
  | _, node => node

def stripList : Option Inside → List (Node α) → List (Node α)
  | _, [] => []
  | s, node :: nodes => strip s node :: stripList (after s node) nodes

end

/-! ### The columns of a comparison or null test -/

def enterVars (vs : List Var) (context : ContextOptimizerSelf α) : ContextOptimizerSelf α :=
  vs.foldl (fun context v => context.enterVar v) context

theorem modify_term {a : Node α} (h : Term a) (context : ContextOptimizerSelf α) :
    mutate myModifierSelf a context = some (a, enterVars (columnsOf a) context) := by
  cases h <;> rfl

theorem modifyList_terms {args : List (Node α)} (h : ∀ a ∈ args, Term a)
    (context : ContextOptimizerSelf α) :
    mutateList myModifierSelf args context =
      some (args, enterVars (columnsOfList args) context) := by
  induction args generalizing context with
  | nil => rfl
  | cons a args ih =>
    rw [List.forall_mem_cons] at h
    rw [columnsOfList, enterVars, List.foldl_append]
    exact mutateList_cons (modify_term h.1 context) (ih h.2 _)

/-- The context after columns inside an OR. -/
structure InOr (i : Inside) (context context' : ContextOptimizerSelf α) : Prop where
  disjunction : context'.disjunction = true
  equality : context'.equality = context.equality
  add : context'.add = verdict i.add i.seen
  already : context'.alreadyConstrainRel = context.alreadyConstrainRel
  tableToAddOr : context'.tableToAddOr = i.seen.head?.bind tableOf
  tableToAddEq : context'.tableToAddEq = none ∨
    context'.equality = true ∧ context'.tableToAddEq = context'.tableToAddOr

/-- Of the two checks of a column inside an OR the second never fails. -/
theorem InOr.enterVar {i : Inside} {context context' : ContextOptimizerSelf α}
    (h : InOr i context context') (v : Var) :
    InOr { i with seen := i.seen ++ [v] } context (context'.enterVar v) := by
  obtain ⟨hdis, heq, hadd, halready, hor, htable⟩ := h
  have hverdict := verdict_snoc i.add i.seen v
  rw [← hor] at hverdict
  by_cases hdiffers : Table.differs context'.tableToAddOr v = true
  · have hhead : (i.seen ++ [v]).head?.bind tableOf = i.seen.head?.bind tableOf := by
      cases hseen : i.seen with
      | nil => simp [hor, hseen, Table.differs] at hdiffers
      | cons u us => simp
    rw [ContextOptimizerSelf.enterVar, if_pos (by simp [hdis, hdiffers])]
    exact ⟨hdis, heq, by simp [hverdict, hdiffers], halready, by simp only [hhead, hor], htable⟩
  · have hsame : Table.differs context'.tableToAddEq v = false := by
      rcases htable with htable | ⟨_, htable⟩
      · simp [htable, Table.differs]
      · simpa [htable] using hdiffers
    have hhead : tableOf v = (i.seen ++ [v]).head?.bind tableOf := by
      cases hseen : i.seen with
      | nil => rfl
      | cons u us =>
        have heq : tableOf u = tableOf v := by
          simpa [hor, hseen, Table.differs, tableOf] using hdiffers
        simp [heq]
    rw [ContextOptimizerSelf.enterVar, if_neg (by simp [hdiffers]), if_neg (by simp [hsame])]
    refine ⟨hdis, heq, by simp [hverdict, hdiffers], halready, ?_, ?_⟩
    · simp [hdis, hhead]
    · cases hequality : context'.equality with
      | true => simp [hdis]
      | false => exact .inl (by simpa [hequality] using htable)

theorem InOr.enterVars {i : Inside} {context context' : ContextOptimizerSelf α}
    (h : InOr i context context') (vs : List Var) :
    InOr { i with seen := i.seen ++ vs } context (enterVars vs context') := by
  induction vs generalizing i context' with
  | nil => simpa [Self.enterVars] using h
  | cons v vs ih => simpa [Self.enterVars] using ih (h.enterVar v)

/-- The context after columns of a comparison outside every OR. -/
structure Outside (seen : List Var) (context context' : ContextOptimizerSelf α) : Prop where
  disjunction : context'.disjunction = false
  equality : context'.equality = true
  add : context'.add = verdict false seen
  already : context'.alreadyConstrainRel = context.alreadyConstrainRel
  tableToAddEq : context'.tableToAddEq = seen.head?.bind tableOf
  tableToAdd : seen ≠ [] → context'.tableToAdd = seen.head?.bind tableOf

theorem Outside.enterVar {seen : List Var} {context context' : ContextOptimizerSelf α}
    (h : Outside seen context context') (v : Var) :
    Outside (seen ++ [v]) context (context'.enterVar v) := by
  obtain ⟨hdis, heq, hadd, halready, htableEq, htable⟩ := h
  have hverdict := verdict_snoc false seen v
  rw [← htableEq] at hverdict
  by_cases hdiffers : Table.differs context'.tableToAddEq v = true
  · obtain ⟨u, us, rfl⟩ : ∃ u us, seen = u :: us := by
      cases seen with
      | nil => simp [htableEq, Table.differs] at hdiffers
      | cons u us => exact ⟨u, us, rfl⟩
    rw [ContextOptimizerSelf.enterVar, if_neg (by simp [hdis]), if_pos (by simp [heq, hdiffers])]
    rw [hdiffers, Bool.not_true] at hverdict
    exact ⟨hdis, heq, hverdict.symm, halready, htableEq, fun _ => htable (by simp)⟩
  · have hhead : tableOf v = (seen ++ [v]).head?.bind tableOf := by
      cases seen with
      | nil => rfl
      | cons u us =>
        have heq : tableOf u = tableOf v := by
          simpa [htableEq, Table.differs, tableOf] using hdiffers
        simp [heq]
    rw [ContextOptimizerSelf.enterVar, if_neg (by simp [hdis]), if_neg (by simp [hdiffers])]
    exact ⟨hdis, heq, by simp [hverdict, hdiffers], halready, by simp [heq, hhead],
      fun _ => hhead⟩

theorem Outside.enterVars {seen : List Var} {context context' : ContextOptimizerSelf α}
    (h : Outside seen context context') (vs : List Var) :
    Outside (seen ++ vs) context (enterVars vs context') := by
  induction vs generalizing seen context' with
  | nil => simpa [Self.enterVars] using h
  | cons v vs ih => simpa [Self.enterVars] using ih (h.enterVar v)

/-! ### One condition -/

/-- The key that a constraint is merged by: none for an OR. -/
def key : Node α → Table
  | .boolExpr _ _ => none
  | node => (columnsOf node).head?.bind tableOf

/-- The constraints that nodes have been added to, one after the other. -/
def addConstraints (rel nodes : List (Node α)) : Option (List (Node α)) :=
  nodes.foldlM (fun rel node => addConstrain rel (makeTempContext node (key node))) rel

theorem addConstraints_append (rel nodes nodes' : List (Node α)) :
    addConstraints rel (nodes ++ nodes') =
      (addConstraints rel nodes).bind (addConstraints · nodes') := by
  simp [addConstraints, List.foldlM_append]

/-- At the place `s`, `my_modifier_self` strips the node and adds what it takes out to the
constraints. -/
def Modifies (s : Option Inside) (node : Node α) : Prop :=
  ∀ context rel', At s context →
    addConstraints context.alreadyConstrainRel (moved s node) = some rel' →
    ∃ context', mutate myModifierSelf node context = some (strip s node, context') ∧
      At (after s node) context' ∧ context'.alreadyConstrainRel = rel'

theorem constrain_eq {node : Node α} {context : ContextOptimizerSelf α} {rel' : List (Node α)}
    (hkey : context.tableToAdd = key node)
    (hadd : addConstraints context.alreadyConstrainRel [node] = some rel') :
    context.constrain node =
      some (.null, { context with add := false, alreadyConstrainRel := rel' }) := by
  have hone : addConstrain context.alreadyConstrainRel (makeTempContext node (key node)) =
      some rel' := by
    simpa [addConstraints] using hadd
  simp [ContextOptimizerSelf.constrain, hkey, hone]

/-- The context after the columns of a comparison or null test, when it is judged. -/
structure Judged (s : Option Inside) (node : Node α)
    (context context' : ContextOptimizerSelf α) : Prop where
  place : At (after s node) { context' with add := flag (after s node) }
  add : context'.add = if s.isNone then takes node else flag (after s node)
  already : context'.alreadyConstrainRel = context.alreadyConstrainRel
  tableToAdd : s = none → takes node = true → context'.tableToAdd = key node

theorem Judged.result {s : Option Inside} {node : Node α}
    {context context' : ContextOptimizerSelf α} {rel' : List (Node α)}
    (h : Judged s node context context') (hor : hasOr node = false)
    (hadd : addConstraints context.alreadyConstrainRel
      (if s.isNone && takes node then [node] else []) = some rel') :
    ∃ context'', (if context'.add && !context'.disjunction then context'.constrain node
        else some (node, context')) =
          some (if s.isNone && takes node then .null else node, context'') ∧
      At (after s node) context'' ∧ context''.alreadyConstrainRel = rel' := by
  obtain ⟨⟨hdis, heq, _, htableOr, htableEq⟩, hflag, halready, hkey⟩ := h
  simp only at hdis heq htableEq
  have hplace : (after s node).isSome = s.isSome := by
    simp [after, hor]
  rw [hplace] at hdis
  rw [← halready] at hadd
  cases s with
  | some i =>
    have hrel : context'.alreadyConstrainRel = rel' := by
      simpa [addConstraints] using hadd
    refine ⟨context', by simp [hdis], ⟨?_, heq, hflag, htableOr, htableEq⟩, hrel⟩
    rw [hdis, hplace]
  | none =>
    rw [after_none] at *
    cases htakes : takes node with
    | false =>
      have hrel : context'.alreadyConstrainRel = rel' := by
        simpa [addConstraints, htakes] using hadd
      have hoff : context'.add = false := by simpa [htakes] using hflag
      exact ⟨context', by simp [hoff], ⟨hdis, heq, hoff, htableOr, htableEq⟩, hrel⟩
    | true =>
      have hon : context'.add = true := by simpa [htakes] using hflag
      have hown : addConstraints context'.alreadyConstrainRel [node] = some rel' := by
        simpa [htakes] using hadd
      have hconstrain := constrain_eq (hkey rfl htakes) hown
      refine ⟨{ context' with add := false, alreadyConstrainRel := rel' }, ?_,
        ⟨hdis, heq, rfl, htableOr, htableEq⟩, rfl⟩
      have hclosed : context'.disjunction = false := hdis
      simp [hon, hclosed, hconstrain]

theorem judged_comparison {s : Option Inside} {opno : Oid} {args : List (Node α)}
    {context : ContextOptimizerSelf α} (hat : At s context) :
    Judged s (.opExpr opno args) context
      { enterVars (columnsOfList args) { context with equality := true } with
        equality := false, tableToAddEq := none } := by
  obtain ⟨hdis, heq, hflag, hor, htable⟩ := hat
  have hafter : after s (.opExpr opno args) =
      s.map fun i => { i with seen := i.seen ++ columnsOfList args } := rfl
  cases s with
  | none =>
    have hstart : Outside [] context { context with equality := true } :=
      ⟨hdis, rfl, hflag, rfl, htable, fun h => absurd rfl h⟩
    obtain ⟨hdis', _, hadd', halready, _, hkey⟩ := hstart.enterVars (columnsOfList args)
    refine ⟨⟨hdis', rfl, rfl, by simp [hafter], rfl⟩, hadd', halready, fun _ htakes => ?_⟩
    refine hkey fun hnil => ?_
    have hnone : takes (.opExpr opno args) = false := by
      rw [takes, columnsOf, ← List.nil_append (columnsOfList args), hnil, verdict]
    rw [hnone] at htakes
    cases htakes
  | some i =>
    have hstart : InOr i { context with equality := true } { context with equality := true } :=
      ⟨hdis, rfl, hflag, rfl, hor i rfl, .inl htable⟩
    obtain ⟨hdis', _, hadd', halready, hor', _⟩ := hstart.enterVars (columnsOfList args)
    exact ⟨⟨hdis', rfl, rfl, by simp [hafter, hor'], rfl⟩, hadd', halready, by simp⟩

theorem judged_nullTest {s : Option Inside} {test : NullTestType} {arg : Node α} (harg : Term arg)
    {context : ContextOptimizerSelf α} (hat : At s context) :
    Judged s (.nullTest test arg) context (enterVars (columnsOf arg) context) := by
  obtain ⟨hdis, heq, hflag, hor, htable⟩ := hat
  have hafter : after s (.nullTest test arg) =
      s.map fun i => { i with seen := i.seen ++ columnsOf arg } := rfl
  cases s with
  | none =>
    cases harg with
    | constant | scalar =>
      exact ⟨⟨hdis, heq, rfl, by simp, htable⟩, hflag, rfl, by simp [takes, columnsOf, verdict]⟩
    | @column v =>
      have henter : enterVars (columnsOf (.var v : Node α)) context =
          { context with tableToAdd := tableOf v, add := true } := by
        simp only [enterVars, columnsOf, List.foldl_cons, List.foldl_nil,
          ContextOptimizerSelf.enterVar, hdis, heq, Option.isSome_none, Bool.false_and,
          Bool.false_eq_true, if_false]
      rw [henter]
      exact ⟨⟨hdis, heq, rfl, by simp, htable⟩, by simp [takes, columnsOf, verdict], rfl,
        fun _ _ => rfl⟩
  | some i =>
    have hstart : InOr i context context := ⟨hdis, rfl, hflag, rfl, hor i rfl, .inl htable⟩
    obtain ⟨hdis', heq', hadd', halready, hor', htable'⟩ := hstart.enterVars (columnsOf arg)
    rw [heq'] at htable'
    refine ⟨⟨hdis', heq'.trans heq, rfl, by simp [hafter, hor'], ?_⟩, hadd', halready, by simp⟩
    simpa [heq] using htable'

theorem modifies_comparison {opno : Oid} {args : List (Node α)} (h : ∀ a ∈ args, Term a)
    (s : Option Inside) : Modifies s (.opExpr opno args) := by
  intro context rel' hat hadd
  rw [moved] at hadd
  obtain ⟨context', hresult, hat', hrel⟩ := (judged_comparison hat).result rfl hadd
  refine ⟨context', ?_, hat', hrel⟩
  rw [strip, ← hresult]
  simp only [mutate, myModifierSelf, modifyList_terms h, Option.bind_eq_bind, Option.bind_some]

theorem modifies_nullTest {test : NullTestType} {arg : Node α} (h : Term arg)
    (s : Option Inside) : Modifies s (.nullTest test arg) := by
  intro context rel' hat hadd
  rw [moved] at hadd
  obtain ⟨context', hresult, hat', hrel⟩ := (judged_nullTest h hat).result rfl hadd
  refine ⟨context', ?_, hat', hrel⟩
  rw [strip, ← hresult]
  simp only [mutate, myModifierSelf, modify_term h, Option.bind_eq_bind, Option.bind_some]

theorem modifiesList {args : List (Node α)} (h : ∀ a ∈ args, ∀ s, Modifies s a) :
    ∀ s context rel', At s context →
      addConstraints context.alreadyConstrainRel (movedList s args) = some rel' →
      ∃ context', mutateList myModifierSelf args context = some (stripList s args, context') ∧
        At (afterList s args) context' ∧ context'.alreadyConstrainRel = rel' := by
  induction args with
  | nil =>
    intro s context rel' hat hadd
    exact ⟨context, rfl, hat, by simpa [movedList, addConstraints] using hadd⟩
  | cons a args ih =>
    intro s context rel' hat hadd
    rw [List.forall_mem_cons] at h
    rw [movedList, addConstraints_append, Option.bind_eq_some_iff] at hadd
    obtain ⟨rel1, hhead, htail⟩ := hadd
    obtain ⟨context1, hrun1, hat1, hrel1⟩ := h.1 s context rel1 hat hhead
    obtain ⟨context', hrun, hat', hrel'⟩ := ih h.2 (after s a) context1 rel' hat1 (hrel1 ▸ htail)
    exact ⟨context', mutateList_cons hrun1 hrun, hat', hrel'⟩

/-- `my_modifier_self` on a condition, at any place. -/
theorem modifies {node : Node α} (h : Condition node) (s : Option Inside) : Modifies s node := by
  induction h generalizing s with
  | comparison hargs => exact modifies_comparison hargs s
  | nullTest harg => exact modifies_nullTest harg s
  | exist =>
    intro context rel' hat hadd
    refine ⟨context, rfl, ?_, by simpa [moved, addConstraints] using hadd⟩
    cases s <;> simpa [after, hasOr, columnsOf] using hat
  | @bool boolop args _ ih =>
    intro context rel' hat hadd
    cases boolop with
    | andExpr | notExpr =>
      obtain ⟨context', hrun, hat', hrel⟩ := modifiesList ih s context rel' hat hadd
      refine ⟨context', ?_, ?_, hrel⟩
      · simp [mutate, myModifierSelf, hrun, strip]
      · rwa [afterList_eq] at hat'
    | orExpr =>
      rw [moved, addConstraints_append, Option.bind_eq_some_iff] at hadd
      obtain ⟨rel1, hinner, hown⟩ := hadd
      have hentered : At (some ⟨flag s, []⟩)
          { context with disjunction := true, tableToAddOr := none } :=
        ⟨rfl, hat.equality, hat.add, by simp, hat.tableToAddEq⟩
      obtain ⟨context1, hrun, hat1, hrel1⟩ := modifiesList ih _ _ rel1 hentered hinner
      have htakes : context1.add = takesOr s args := by
        rw [hat1.add, afterList_eq, takesOr]
        cases hasOrList args <;> simp [flag]
      rw [← htakes, ← hrel1] at hown
      rw [strip, ← htakes]
      simp only [mutate, myModifierSelf, hrun, Option.bind_eq_bind, Option.bind_some]
      cases hadd : context1.add with
      | false =>
        refine ⟨_, rfl, ⟨rfl, hat1.equality, rfl, by simp [after, hasOr], hat1.tableToAddEq⟩, ?_⟩
        simpa [hadd, addConstraints] using hown
      | true =>
        have hone : addConstraints context1.alreadyConstrainRel [.boolExpr .orExpr args] =
            some rel' := by
          simpa [hadd] using hown
        have hconstrain : ContextOptimizerSelf.constrain (.boolExpr .orExpr args)
            { context1 with disjunction := false, tableToAdd := none } = _ :=
          constrain_eq rfl hone
        refine ⟨_, hconstrain, ⟨rfl, hat1.equality, rfl, by simp [after, hasOr],
          hat1.tableToAddEq⟩, rfl⟩

/-! ### Outside every OR -/

theorem modifies_null : Modifies none (.null : Node α) := by
  intro context rel' hat hadd
  exact ⟨context, rfl, by simpa using hat, by simpa [moved, addConstraints] using hadd⟩

/-- `my_modifier_self` on the arguments of an AND that is in no OR. -/
theorem modifiesList_none {args : List (Node α)} (h : ∀ a ∈ args, Modifies none a) :
    ∀ context rel', At none context →
      addConstraints context.alreadyConstrainRel (movedList none args) = some rel' →
      ∃ context', mutateList myModifierSelf args context = some (stripList none args, context') ∧
        At none context' ∧ context'.alreadyConstrainRel = rel' := by
  induction args with
  | nil =>
    intro context rel' hat hadd
    exact ⟨context, rfl, hat, by simpa [movedList, addConstraints] using hadd⟩
  | cons a args ih =>
    intro context rel' hat hadd
    rw [List.forall_mem_cons] at h
    rw [movedList, after_none, addConstraints_append, Option.bind_eq_some_iff] at hadd
    obtain ⟨rel1, hhead, htail⟩ := hadd
    obtain ⟨context1, hrun1, hat1, hrel1⟩ := h.1 context rel1 hat hhead
    rw [after_none] at hat1
    obtain ⟨context', hrun, hat', hrel'⟩ := ih h.2 context1 rel' hat1 (hrel1 ▸ htail)
    refine ⟨context', ?_, hat', hrel'⟩
    rw [stripList, after_none]
    exact mutateList_cons hrun1 hrun

theorem modifies_and {args : List (Node α)} (h : ∀ a ∈ args, Modifies none a) :
    Modifies none (.boolExpr .andExpr args) := by
  intro context rel' hat hadd
  obtain ⟨context', hrun, hat', hrel⟩ := modifiesList_none h context rel' hat hadd
  refine ⟨context', ?_, by simpa using hat', hrel⟩
  simp [mutate, myModifierSelf, hrun, strip]

theorem movedList_none (args : List (Node α)) :
    movedList none args = args.flatMap (moved none) := by
  induction args with
  | nil => rfl
  | cons a args ih => rw [movedList, after_none, ih, List.flatMap_cons]

theorem stripList_none (args : List (Node α)) : stripList none args = args.map (strip none) := by
  induction args with
  | nil => rfl
  | cons a args ih => rw [stripList, after_none, ih, List.map_cons]

theorem moved_and (args : List (Node α)) :
    moved none (.boolExpr .andExpr args) = args.flatMap (moved none) := by
  rw [moved, movedList_none]
  simp

theorem strip_and (args : List (Node α)) :
    strip none (.boolExpr .andExpr args) = .boolExpr .andExpr (args.map (strip none)) := by
  rw [strip, stripList_none]
  simp

/-! ### The constraints -/

theorem Term.isExpression {a : Node α} (h : Term a) : a.isExpression = true := by
  cases h <;> rfl

theorem Condition.isExpression {node : Node α} (h : Condition node) :
    node.isExpression = true := by
  induction h with
  | comparison hargs => exact Node.areExpressions_iff.mpr fun a ha => (hargs a ha).isExpression
  | nullTest harg => exact harg.isExpression
  | exist => rfl
  | bool _ ih => exact Node.areExpressions_iff.mpr ih

/-- `temp_modifier_add` returns on every entry. -/
theorem safe_tempModifierAdd : Safe (tempModifierAdd : Mutator α (TempContext α))
    fun context => context.constraintToAdd.isExpression = true := by
  refine ⟨fun _ _ _ _ _ context hc => ⟨_, context, rfl, rfl, hc⟩,
    fun node traverse hexpr hquery htraverse context hc => ?_⟩
  cases node with
  | query => exact absurd rfl (hquery _ _ _ _)
  | null => exact ⟨.null, context, rfl, rfl, hc⟩
  | var v => exact ⟨.var v, _, rfl, rfl, by split <;> exact hc⟩
  | boolExpr boolop args =>
    obtain ⟨tmp, context', hrun, htmp, hc'⟩ := htraverse context hc
    simp only [tempModifierAdd, hrun, Option.bind_eq_bind, Option.bind_some]
    split
    · next args' hadd =>
      refine ⟨_, _, rfl, Node.areExpressions_iff.mpr (List.forall_mem_append.mpr ⟨?_, ?_⟩), hc'⟩
      · exact Node.areExpressions_iff.mp htmp
      · simpa using hc'
    · exact ⟨_, _, rfl, htmp, hc'⟩
  | _ => exact htraverse context hc

theorem addConstrainLoop_returns {rel : List (Node α)} (h : ∀ t ∈ rel, t.isExpression = true) :
    ∀ context : TempContext α, context.constraintToAdd.isExpression = true → ∃ result context',
      addConstrainLoop rel context = some (result, context') ∧
      (∀ t ∈ result, t.isExpression = true) ∧ context'.constraintToAdd.isExpression = true := by
  induction rel with
  | nil => exact fun context hc => ⟨[], context, rfl, by simp, hc⟩
  | cons t rel ih =>
    intro context hc
    rw [List.forall_mem_cons] at h
    obtain ⟨new, context1, hnew, hexpr, hc1⟩ := safe_tempModifierAdd.mutate h.1 context hc
    by_cases halready : context.alreadyAdd = true
    · obtain ⟨result, context', hrun, hresult, hc'⟩ := ih h.2 context hc
      refine ⟨t :: result, context', by simp [addConstrainLoop, halready, hrun], ?_, hc'⟩
      exact List.forall_mem_cons.mpr ⟨h.1, hresult⟩
    cases hadd : context1.toAdd && !context1.alreadyAdd with
    | true =>
      obtain ⟨result, context', hrun, hresult, hc'⟩ :=
        ih h.2 { context1 with toAdd := false, alreadyAdd := true } hc1
      refine ⟨.boolExpr .andExpr [new, context1.constraintToAdd] :: result, context', ?_,
        List.forall_mem_cons.mpr ⟨?_, hresult⟩, hc'⟩
      · simp only [addConstrainLoop, if_neg halready, hnew, Option.bind_eq_bind, Option.bind_some,
          hadd, if_true, hrun]
      · simp [Node.isExpression, Node.areExpressions, hexpr, hc1]
    | false =>
      obtain ⟨result, context', hrun, hresult, hc'⟩ := ih h.2 context1 hc1
      refine ⟨new :: result, context', ?_, List.forall_mem_cons.mpr ⟨hexpr, hresult⟩, hc'⟩
      simp only [addConstrainLoop, if_neg halready, hnew, Option.bind_eq_bind, Option.bind_some,
        hadd, Bool.false_eq_true, if_false, hrun]

theorem addConstrain_returns {rel : List (Node α)} (h : ∀ t ∈ rel, t.isExpression = true)
    {node : Node α} (hnode : node.isExpression = true) (table : Table) :
    ∃ rel', addConstrain rel (makeTempContext node table) = some rel' ∧
      ∀ t ∈ rel', t.isExpression = true := by
  obtain ⟨result, context', hrun, hresult, hc'⟩ :=
    addConstrainLoop_returns h (makeTempContext node table) hnode
  cases rel with
  | nil => exact ⟨[node], rfl, by simpa using hnode⟩
  | cons t rel =>
    refine ⟨_, by simp [addConstrain, hrun]; rfl, ?_⟩
    split
    · exact hresult
    · exact List.forall_mem_append.mpr ⟨hresult, by simpa using hc'⟩

theorem addConstraints_returns {nodes : List (Node α)}
    (hnodes : ∀ node ∈ nodes, node.isExpression = true) :
    ∀ {rel : List (Node α)}, (∀ t ∈ rel, t.isExpression = true) →
      ∃ rel', addConstraints rel nodes = some rel' ∧ ∀ t ∈ rel', t.isExpression = true := by
  induction nodes with
  | nil => exact fun {rel} h => ⟨rel, rfl, h⟩
  | cons node nodes ih =>
    intro rel h
    rw [List.forall_mem_cons] at hnodes
    obtain ⟨rel1, hrun1, h1⟩ := addConstrain_returns h hnodes.1 (key node)
    obtain ⟨rel', hrun, h'⟩ := ih hnodes.2 h1
    have hcons : addConstraints rel (node :: nodes) = addConstraints rel1 nodes := by
      simp [addConstraints, hrun1]
    exact ⟨rel', hcons.trans hrun, h'⟩

theorem addConstrainLoop_length {rel result : List (Node α)} {context context' : TempContext α}
    (h : addConstrainLoop rel context = some (result, context')) : result.length = rel.length := by
  induction rel generalizing context result context' with
  | nil =>
    cases h
    rfl
  | cons t rel ih =>
    rw [addConstrainLoop] at h
    split at h
    · obtain ⟨⟨result1, context1⟩, hloop, h⟩ := Option.bind_eq_some_iff.mp h
      cases h
      rw [List.length_cons, List.length_cons, ih hloop]
    · obtain ⟨⟨new, context1⟩, _, h⟩ := Option.bind_eq_some_iff.mp h
      dsimp only at h
      split at h
      · obtain ⟨⟨result1, context2⟩, hloop, h⟩ := Option.bind_eq_some_iff.mp h
        cases h
        rw [List.length_cons, List.length_cons, ih hloop]
      · obtain ⟨⟨result1, context2⟩, hloop, h⟩ := Option.bind_eq_some_iff.mp h
        cases h
        rw [List.length_cons, List.length_cons, ih hloop]

theorem addConstrain_ne_nil {rel rel' : List (Node α)} {context : TempContext α}
    (h : addConstrain rel context = some rel') : rel' ≠ [] := by
  cases rel with
  | nil =>
    cases h
    exact List.cons_ne_nil _ _
  | cons t rel =>
    obtain ⟨⟨result, context'⟩, hloop, h⟩ := Option.bind_eq_some_iff.mp h
    have hlength := addConstrainLoop_length hloop
    cases h
    refine List.ne_nil_of_length_pos ?_
    split
    · rw [hlength, List.length_cons]
      omega
    · rw [List.length_append, List.length_singleton]
      omega

/-- What is added is among the constraints. -/
theorem addConstraints_ne_nil {nodes rel : List (Node α)} (hne : nodes ≠ [])
    (h : addConstraints [] nodes = some rel) : rel ≠ [] := by
  rw [← List.dropLast_append_getLast hne, addConstraints_append] at h
  obtain ⟨rel1, _, hlast⟩ := Option.bind_eq_some_iff.mp h
  obtain ⟨rel2, hadd, hnil⟩ := Option.bind_eq_some_iff.mp hlast
  cases hnil
  exact addConstrain_ne_nil hadd

/-- The constraints are expressions. -/
def Collects (context : ContextOptimizerSelf α) : Prop :=
  ∀ t ∈ context.alreadyConstrainRel, t.isExpression = true

theorem Collects.constrain {node : Node α} (hnode : node.isExpression = true) :
    Returns Collects (ContextOptimizerSelf.constrain node) := by
  intro context hc
  obtain ⟨rel', hrun, hrel'⟩ := addConstrain_returns hc hnode context.tableToAdd
  exact ⟨.null, { context with add := false, alreadyConstrainRel := rel' },
    by simp [ContextOptimizerSelf.constrain, hrun], rfl, hrel'⟩

/-- `my_modifier_self` returns on every WHERE. -/
theorem safe_myModifierSelf :
    Safe (myModifierSelf : Mutator α (ContextOptimizerSelf α)) Collects := by
  refine ⟨fun _ _ _ _ _ context hc => ⟨_, context, rfl, rfl, hc⟩,
    fun node traverse hexpr hquery htraverse context hc => ?_⟩
  cases node with
  | query => exact absurd rfl (hquery _ _ _ _)
  | null => exact ⟨.null, context, rfl, rfl, hc⟩
  | var v =>
    refine ⟨.var v, _, rfl, rfl, ?_⟩
    unfold ContextOptimizerSelf.enterVar
    split
    · exact hc
    · split <;> exact hc
  | boolExpr boolop args =>
    cases boolop with
    | andExpr | notExpr => exact htraverse context hc
    | orExpr =>
      obtain ⟨retour, context', hrun, hretour, hc'⟩ :=
        htraverse { context with disjunction := true, tableToAddOr := none } hc
      simp only [myModifierSelf, hrun, Option.bind_eq_bind, Option.bind_some]
      split
      · exact Collects.constrain hexpr _ hc'
      · exact ⟨retour, _, rfl, hretour, hc'⟩
  | nullTest test arg =>
    obtain ⟨retour, context', hrun, hretour, hc'⟩ := htraverse context hc
    simp only [myModifierSelf, hrun, Option.bind_eq_bind, Option.bind_some]
    split
    · exact Collects.constrain hexpr _ hc'
    · exact ⟨retour, _, rfl, hretour, hc'⟩
  | opExpr opno args =>
    obtain ⟨retour, context', hrun, hretour, hc'⟩ := htraverse { context with equality := true } hc
    simp only [myModifierSelf, hrun, Option.bind_eq_bind, Option.bind_some]
    split
    · exact Collects.constrain hexpr _ hc'
    · exact ⟨retour, _, rfl, hretour, hc'⟩
  | _ => exact htraverse context hc

/-- What is left of a WHERE and the constraints are expressions. -/
theorem myModifierSelf_returns {quals : Node α} (h : quals.isExpression = true) :
    ∃ quals' context, mutate myModifierSelf quals makeContextOptimizerSelf =
        some (quals', context) ∧ quals'.isExpression = true ∧
      ∀ t ∈ context.alreadyConstrainRel, t.isExpression = true :=
  safe_myModifierSelf.mutate h makeContextOptimizerSelf
    (by simp [Collects, makeContextOptimizerSelf])

theorem movedList_forall {P : Node α → Prop} {args : List (Node α)}
    (h : ∀ a ∈ args, ∀ s, ∀ t ∈ moved s a, P t) (s : Option Inside) :
    ∀ t ∈ movedList s args, P t := by
  induction args generalizing s with
  | nil => simp [movedList]
  | cons a args ih =>
    rw [List.forall_mem_cons] at h
    rw [movedList, List.forall_mem_append]
    exact ⟨h.1 s, ih h.2 _⟩

/-- What is taken out of a condition are parts of it. -/
theorem moved_condition {node : Node α} (h : Condition node) (s : Option Inside) :
    ∀ t ∈ moved s node, Condition t := by
  induction h generalizing s with
  | comparison hargs =>
    rw [moved]
    split
    · simpa using .comparison hargs
    · simp
  | nullTest harg =>
    rw [moved]
    split
    · simpa using .nullTest harg
    · simp
  | exist => simp [moved]
  | @bool boolop args hargs ih =>
    cases boolop with
    | andExpr | notExpr => exact movedList_forall ih s
    | orExpr =>
      rw [moved, List.forall_mem_append]
      refine ⟨movedList_forall ih _, ?_⟩
      split
      · simpa using .bool hargs
      · simp

/-- `my_modifier_self` on a whole WHERE. -/
theorem Modifies.run {quals : Node α} (h : Modifies none quals)
    (hmoved : ∀ t ∈ moved none quals, t.isExpression = true) :
    ∃ context, mutate myModifierSelf quals makeContextOptimizerSelf =
        some (strip none quals, context) ∧
      addConstraints [] (moved none quals) = some context.alreadyConstrainRel ∧
      ∀ t ∈ context.alreadyConstrainRel, t.isExpression = true := by
  obtain ⟨rel, hrel, hexpr⟩ := addConstraints_returns hmoved (fun t (ht : t ∈ []) => (by cases ht))
  obtain ⟨context, hrun, _, rfl⟩ := h makeContextOptimizerSelf rel
    ⟨rfl, rfl, rfl, by simp, rfl⟩ hrel
  exact ⟨context, hrun, hrel, hexpr⟩

theorem myModifierSelf_condition {quals : Node α} (h : Condition quals) :
    ∃ context, mutate myModifierSelf quals makeContextOptimizerSelf =
        some (strip none quals, context) ∧
      addConstraints [] (moved none quals) = some context.alreadyConstrainRel := by
  obtain ⟨context, hrun, hrel, _⟩ := (modifies h none).run
    fun t ht => (moved_condition h none t ht).isExpression
  exact ⟨context, hrun, hrel⟩

end Infed.Self
