import Infed.Exist.Connectivity
import Infed.Self.Moved

/-! One extraction: what `rewrite_connexe` makes of a query for a component of any size.
`mutator_conn` captures the comparisons that mention a table of the component, `mutator_varquals`
renumbers the columns of those that stay, and neither enters a sub-select. -/

namespace Infed.Exist

open Self (Leaf)

variable {α : Type} {n : Nat} {c : List Nat}

/-! ### Columns of the component -/

/-- A column of one of the tables. -/
def isColumnOf (c : List Nat) : Node α → Bool
  | .var v => v.varlevelsup == 0 && c.contains v.varno
  | _ => false

/-- A comparison that has a column of one of the tables. -/
def mentions (c : List Nat) : Node α → Bool
  | .opExpr _ args => args.any (isColumnOf c)
  | _ => false

theorem isInList_bne_zero (varno : Nat) (c : List Nat) :
    (isInList varno c != 0) = c.contains varno := by
  unfold isInList
  cases hfind : c.findIdx? (varno == ·) with
  | some i =>
    obtain ⟨hi, hbeq, _⟩ := List.findIdx?_eq_some_iff_getElem.mp hfind
    have hmem : varno ∈ c := (beq_iff_eq.mp hbeq).symm ▸ List.getElem_mem hi
    simpa using hmem
  | none =>
    have hnot : varno ∉ c := fun hmem => by
      simpa using List.findIdx?_eq_none_iff.mp hfind varno hmem
    simpa using hnot

theorem mutatorConn_var (cs : List (Node α)) (flag : Bool) (v : Var) :
    mutate mutatorConn (.var v) ⟨cs, c, flag⟩ =
      some (.var v, ⟨cs, c, flag || isColumnOf c (.var v : Node α)⟩) := by
  simp only [mutate, mutatorConn, isInList_bne_zero, isColumnOf]
  cases v.varlevelsup == 0 && c.contains v.varno <;> simp

/-- None of the columns is of a table of the component. -/
def Avoids (c : List Nat) (vs : List Var) : Prop := ∀ v ∈ vs, v.varlevelsup = 0 → v.varno ∉ c

theorem Avoids.left {vs ws : List Var} (h : Avoids c (vs ++ ws)) : Avoids c vs :=
  fun v hv => h v (List.mem_append_left _ hv)

theorem Avoids.right {vs ws : List Var} (h : Avoids c (vs ++ ws)) : Avoids c ws :=
  fun v hv => h v (List.mem_append_right _ hv)

mutual

/-- `mutator_conn` copies an expression without columns of the component. -/
theorem mutatorConn_avoids (cs : List (Node α)) : ∀ {node : Node α}, node.isExpression = true →
    Avoids c (columnsOf node) →
    mutate mutatorConn node ⟨cs, c, false⟩ = some (node, ⟨cs, c, false⟩)
  | .var v, _, h => by
    have hcolumn : isColumnOf c (.var v : Node α) = false := by
      simpa [isColumnOf] using h v List.mem_cons_self
    rw [mutatorConn_var, hcolumn]
    rfl
  | .null, _, _ | .const _, _, _ | .param _, _, _ | .query _ _ _ _, _, _ => rfl
  | .opExpr opno args, hexpr, h => by
    simp [mutate, mutatorConn, mutatorConnList_avoids cs hexpr h]
  | .boolExpr boolop args, hexpr, h => by
    simp [mutate, mutatorConn, mutatorConnList_avoids cs hexpr h]
  | .list args, hexpr, h => by
    simp [mutate, mutatorConn, mutatorConnList_avoids cs hexpr h]
  | .nullTest test arg, hexpr, h => by
    simp [mutate, mutatorConn, mutatorConn_avoids cs (show arg.isExpression = true from hexpr) h]
  | .targetEntry arg resno, hexpr, h => by
    simp [mutate, mutatorConn, mutatorConn_avoids cs (show arg.isExpression = true from hexpr) h]
  | .subLink kind testexpr subselect, hexpr, h => by
    rw [Node.isExpression, Bool.and_eq_true] at hexpr
    simp [mutate, mutatorConn, mutatorConn_avoids cs hexpr.1 h.left,
      mutatorConn_avoids cs hexpr.2 h.right]
  | .rangeTblEntry _ _ _, hexpr, _ => by cases hexpr

theorem mutatorConnList_avoids (cs : List (Node α)) : ∀ {nodes : List (Node α)},
    Node.areExpressions nodes = true → Avoids c (columnsOfList nodes) →
    mutateList mutatorConn nodes ⟨cs, c, false⟩ = some (nodes, ⟨cs, c, false⟩)
  | [], _, _ => rfl
  | node :: nodes, hexpr, h => by
    rw [Node.areExpressions, Bool.and_eq_true] at hexpr
    exact mutateList_cons (mutatorConn_avoids cs hexpr.1 h.left)
      (mutatorConnList_avoids cs hexpr.2 h.right)

end

/-- A WHERE without columns of the component is left as it is. -/
theorem captures_avoids {quals : Node α} (hexpr : quals.isExpression = true)
    (h : Avoids c (columnsOf quals)) :
    expressionTreeMutator mutatorConn quals (makeTempContextConnexRew c) =
      some (quals, makeTempContextConnexRew c) := by
  cases quals with
  | opExpr opno args =>
    simp [expressionTreeMutator, makeTempContextConnexRew, mutatorConnList_avoids [] hexpr h]
  | boolExpr boolop args =>
    simp [expressionTreeMutator, makeTempContextConnexRew, mutatorConnList_avoids [] hexpr h]
  | list elems =>
    simp [expressionTreeMutator, makeTempContextConnexRew, mutatorConnList_avoids [] hexpr h]
  | nullTest test arg =>
    simp [expressionTreeMutator, makeTempContextConnexRew,
      mutatorConn_avoids [] (show arg.isExpression = true from hexpr) h]
  | targetEntry arg resno =>
    simp [expressionTreeMutator, makeTempContextConnexRew,
      mutatorConn_avoids [] (show arg.isExpression = true from hexpr) h]
  | subLink kind testexpr subselect =>
    rw [Node.isExpression, Bool.and_eq_true] at hexpr
    simp [expressionTreeMutator, makeTempContextConnexRew, mutatorConn_avoids [] hexpr.1 h.left,
      mutatorConn_avoids [] hexpr.2 h.right]
  | rangeTblEntry => cases hexpr
  | _ => rfl

/-! ### Which comparisons are captured -/

/-- A WHERE between two extractions: AND, OR and NOT over comparisons and null tests of columns and
constants, and EXISTS. -/
inductive Residual : Node α → Prop where
  | null : Residual .null
  | comparison {opno args} : (∀ a ∈ args, Leaf a) → Residual (.opExpr opno args)
  | nullTest {test arg} : Leaf arg → Residual (.nullTest test arg)
  | exist {targetList rtable fromlist quals} :
    Residual (.subLink .existsSublink .null (.query targetList rtable fromlist quals))
  | bool {boolop args} : (∀ a ∈ args, Residual a) → Residual (.boolExpr boolop args)

mutual

/-- The flag `to_remove` after a condition, from its value before.  A null test on a column of the
component sets it, and only a comparison clears it. -/
def flagAfter (c : List Nat) : Bool → Node α → Bool
  | _, .opExpr _ _ => false
  | flag, .nullTest _ arg => flag || isColumnOf c arg
  | flag, .boolExpr _ args => flagAfterList c flag args
  | flag, _ => flag

def flagAfterList (c : List Nat) : Bool → List (Node α) → Bool
  | flag, [] => flag
  | flag, node :: nodes => flagAfterList c (flagAfter c flag node) nodes

end

mutual

/-- The comparisons that are captured: those that mention the component, and those that come after
the flag was set. -/
def captured (c : List Nat) : Bool → Node α → List (Node α)
  | flag, .opExpr opno args =>
    if flag || mentions c (.opExpr opno args : Node α) then [.opExpr opno args] else []
  | flag, .boolExpr _ args => capturedList c flag args
  | _, _ => []

def capturedList (c : List Nat) : Bool → List (Node α) → List (Node α)
  | _, [] => []
  | flag, node :: nodes => captured c flag node ++ capturedList c (flagAfter c flag node) nodes

end

mutual

/-- The condition with NULL for the comparisons that are captured. -/
def strip (c : List Nat) : Bool → Node α → Node α
  | flag, .opExpr opno args =>
    if flag || mentions c (.opExpr opno args : Node α) then .null else .opExpr opno args
  | flag, .boolExpr boolop args => .boolExpr boolop (stripList c flag args)
  | _, node => node

def stripList (c : List Nat) : Bool → List (Node α) → List (Node α)
  | _, [] => []
  | flag, node :: nodes => strip c flag node :: stripList c (flagAfter c flag node) nodes

end

theorem mutatorConn_term {a : Node α} (h : Leaf a) (cs : List (Node α)) (flag : Bool) :
    mutate mutatorConn a ⟨cs, c, flag⟩ = some (a, ⟨cs, c, flag || isColumnOf c a⟩) := by
  cases h with
  | column => exact mutatorConn_var cs flag _
  | constant =>
    rw [isColumnOf, Bool.or_false]
    · rfl
    · simp

theorem mutatorConn_terms {args : List (Node α)} (h : ∀ a ∈ args, Leaf a) (cs : List (Node α))
    (flag : Bool) : mutateList mutatorConn args ⟨cs, c, flag⟩ =
      some (args, ⟨cs, c, flag || args.any (isColumnOf c)⟩) := by
  induction args generalizing flag with
  | nil => simp [mutateList]
  | cons a args ih =>
    rw [List.forall_mem_cons] at h
    rw [mutateList_cons (mutatorConn_term h.1 cs flag) (ih h.2 _), List.any_cons, Bool.or_assoc]

/-- What `mutator_conn` does to a condition, whatever has been captured and flagged before. -/
def Captures (c : List Nat) (a : Node α) : Prop :=
  ∀ cs flag, mutate mutatorConn a ⟨cs, c, flag⟩ =
    some (strip c flag a, ⟨cs ++ captured c flag a, c, flagAfter c flag a⟩)

theorem capturesList {args : List (Node α)} (h : ∀ a ∈ args, Captures c a) (cs : List (Node α))
    (flag : Bool) : mutateList mutatorConn args ⟨cs, c, flag⟩ =
      some (stripList c flag args, ⟨cs ++ capturedList c flag args, c,
        flagAfterList c flag args⟩) := by
  induction args generalizing cs flag with
  | nil => simp [mutateList, stripList, capturedList, flagAfterList]
  | cons a args ih =>
    rw [List.forall_mem_cons] at h
    rw [mutateList_cons (h.1 cs flag) (ih h.2 _ _), stripList, capturedList, flagAfterList,
      List.append_assoc]

theorem Residual.captures {a : Node α} (h : Residual a) : Captures c a := by
  induction h with
  | null =>
    intro cs flag
    simp [mutate, mutatorConn, strip, captured, flagAfter]
  | comparison hargs =>
    intro cs flag
    simp only [mutate, mutatorConn, mutatorConn_terms hargs, strip, captured, flagAfter, mentions,
      Option.bind_eq_bind, Option.bind_some]
    split <;> simp_all
  | nullTest harg =>
    intro cs flag
    simp [mutate, mutatorConn, mutatorConn_term harg, strip, captured, flagAfter]
  | exist =>
    intro cs flag
    simp [mutate, mutatorConn, strip, captured, flagAfter]
  | bool _ ih =>
    intro cs flag
    simp [mutate, mutatorConn, capturesList ih, strip, captured, flagAfter]

/-- What is captured of a WHERE.  The call starts below its root, so that a comparison that is the
whole WHERE is not. -/
def capturedRoot (c : List Nat) : Node α → List (Node α)
  | .boolExpr boolop args => captured c false (.boolExpr boolop args)
  | _ => []

def stripRoot (c : List Nat) : Node α → Node α
  | .boolExpr boolop args => strip c false (.boolExpr boolop args)
  | quals => quals

theorem captures_root {quals : Node α} (h : Residual quals) : ∃ flag,
    expressionTreeMutator mutatorConn quals (makeTempContextConnexRew c) =
      some (stripRoot c quals, ⟨capturedRoot c quals, c, flag⟩) := by
  cases h with
  | null => exact ⟨false, rfl⟩
  | comparison hargs =>
    exact ⟨_, by simp [expressionTreeMutator, makeTempContextConnexRew, mutatorConn_terms hargs,
      stripRoot, capturedRoot]; rfl⟩
  | nullTest harg =>
    exact ⟨_, by simp [expressionTreeMutator, makeTempContextConnexRew, mutatorConn_term harg,
      stripRoot, capturedRoot]; rfl⟩
  | exist => exact ⟨false, rfl⟩
  | bool hargs =>
    exact ⟨_, by simp [expressionTreeMutator, makeTempContextConnexRew,
      capturesList fun a ha => (hargs a ha).captures, stripRoot, capturedRoot, strip,
      captured]; rfl⟩

mutual

/-- Another comparison than those that mention the component is captured: one that the flag
meets. -/
def strays (c : List Nat) : Bool → Node α → Bool
  | flag, .opExpr opno args => flag && !mentions c (.opExpr opno args : Node α)
  | flag, .boolExpr _ args => straysList c flag args
  | _, _ => false

def straysList (c : List Nat) : Bool → List (Node α) → Bool
  | _, [] => false
  | flag, node :: nodes => strays c flag node || straysList c (flagAfter c flag node) nodes

end

mutual

/-- The comparisons that mention the component are captured, and more exactly if there are
strays. -/
theorem captured_eq_iff (c : List Nat) : ∀ (flag : Bool) (a : Node α),
    (strays c flag a = false → captured c flag a = (comparisons a).filter (mentions c)) ∧
      (strays c flag a = true →
        ((comparisons a).filter (mentions c)).length < (captured c flag a).length)
  | flag, .opExpr opno args => by
    rw [strays, captured, comparisons]
    cases flag <;> cases hm : mentions c (.opExpr opno args : Node α) <;> simp [hm]
  | flag, .boolExpr _ args => capturedList_eq_iff c flag args
  | _, .null | _, .var _ | _, .const _ | _, .param _ | _, .nullTest _ _ | _, .subLink _ _ _
  | _, .query _ _ _ _ | _, .rangeTblEntry _ _ _ | _, .targetEntry _ _ | _, .list _ =>
    ⟨fun _ => rfl, fun h => by cases h⟩

theorem capturedList_eq_iff (c : List Nat) : ∀ (flag : Bool) (args : List (Node α)),
    (straysList c flag args = false →
        capturedList c flag args = (comparisonsList args).filter (mentions c)) ∧
      (straysList c flag args = true →
        ((comparisonsList args).filter (mentions c)).length < (capturedList c flag args).length)
  | _, [] => ⟨fun _ => rfl, fun h => by cases h⟩
  | flag, a :: args => by
    obtain ⟨hsame, hmore⟩ := captured_eq_iff c flag a
    obtain ⟨hsames, hmores⟩ := capturedList_eq_iff c (flagAfter c flag a) args
    rw [straysList, capturedList, comparisonsList, List.filter_append, List.length_append,
      List.length_append]
    cases h : strays c flag a <;> cases hs : straysList c (flagAfter c flag a) args <;>
      simp only [h, hs, Bool.or_self, Bool.or_true, Bool.or_false, Bool.true_eq_false,
        Bool.false_eq_true, false_implies, true_implies, true_and, and_true] at *
    · rw [hsame, hsames]
    · rw [hsame]
      omega
    · rw [hsames]
      omega
    · omega

end

/-! ### Without null tests -/

/-- A WHERE without null tests, in which only the comparisons that mention the component are
captured. -/
inductive Plain : Node α → Prop where
  | null : Plain .null
  | comparison {opno args} : (∀ a ∈ args, Leaf a) → Plain (.opExpr opno args)
  | exist {targetList rtable fromlist quals} :
    Plain (.subLink .existsSublink .null (.query targetList rtable fromlist quals))
  | bool {boolop args} : (∀ a ∈ args, Plain a) → Plain (.boolExpr boolop args)

theorem Plain.residual {a : Node α} (h : Plain a) : Residual a := by
  induction h with
  | null => exact .null
  | comparison hargs => exact .comparison hargs
  | exist => exact .exist
  | bool _ ih => exact .bool ih

theorem flagAfterList_false {args : List (Node α)}
    (h : ∀ a ∈ args, flagAfter c false a = false) : flagAfterList c false args = false := by
  induction args with
  | nil => rfl
  | cons a args ih =>
    rw [List.forall_mem_cons] at h
    rw [flagAfterList, h.1, ih h.2]

theorem Plain.flagAfter {a : Node α} (h : Plain a) : flagAfter c false a = false := by
  induction h with
  | null => rfl
  | comparison => rfl
  | exist => rfl
  | bool _ ih => exact flagAfterList_false ih

theorem stripList_eq_map {args : List (Node α)} (h : ∀ a ∈ args, Plain a) :
    stripList c false args = args.map (strip c false) := by
  induction args with
  | nil => rfl
  | cons a args ih =>
    rw [List.forall_mem_cons] at h
    rw [stripList, h.1.flagAfter, ih h.2, List.map_cons]

theorem straysList_false {args : List (Node α)} (h : ∀ a ∈ args, Plain a)
    (hargs : ∀ a ∈ args, strays c false a = false) : straysList c false args = false := by
  induction args with
  | nil => rfl
  | cons a args ih =>
    rw [List.forall_mem_cons] at h hargs
    rw [straysList, hargs.1, h.1.flagAfter, ih h.2 hargs.2, Bool.or_self]

theorem Plain.strays {a : Node α} (h : Plain a) : strays c false a = false := by
  induction h with
  | null => rfl
  | comparison => rfl
  | exist => rfl
  | bool hargs ih => exact straysList_false hargs ih

theorem Plain.captured {a : Node α} (h : Plain a) :
    captured c false a = (comparisons a).filter (mentions c) :=
  (captured_eq_iff c false a).1 h.strays

theorem Plain.comparisons_strip {a : Node α} (h : Plain a) :
    comparisons (Exist.strip c false a) = (comparisons a).filter (!mentions c ·) := by
  induction h with
  | null => rfl
  | @comparison opno args _ =>
    unfold Exist.strip
    by_cases hm : mentions c (.opExpr opno args : Node α) = true <;> simp [hm, comparisons]
  | exist => rfl
  | bool hargs ih =>
    rw [Exist.strip, stripList_eq_map hargs, comparisons, comparisons, comparisonsList_eq_flatMap,
      comparisonsList_eq_flatMap, List.filter_flatMap, List.flatMap_map]
    exact List.flatMap_congr ih

/-! ### The columns that stay -/

/-- The column in the query without the tables. -/
def renumberVar (c : List Nat) (v : Var) : Var :=
  if v.varlevelsup = 0 then { v with varno := deacrease v.varno c } else v

/-- `mutator_varquals` renumbers the columns of the query itself. -/
theorem mutatorVarquals_maps :
    MapsColumns (mutatorVarquals c : Mutator α Unit) (renumberVar c) := by
  refine ⟨fun _ _ _ => rfl, fun _ _ _ _ _ _ => rfl, fun _ => rfl,
    fun node traverse s hn hv hq => ?_⟩
  cases node with
  | null => exact absurd rfl hn
  | var v => exact absurd rfl (hv v)
  | query => exact absurd rfl (hq _ _ _ _)
  | _ => rfl

theorem stripList_forall {P Q : Node α → Prop} {args : List (Node α)}
    (h : ∀ a ∈ args, P a → ∀ flag, Q (strip c flag a)) (hargs : ∀ a ∈ args, P a) (flag : Bool) :
    ∀ a ∈ stripList c flag args, Q a := by
  induction args generalizing flag with
  | nil => simp [stripList]
  | cons a args ih =>
    rw [List.forall_mem_cons] at h hargs
    exact List.forall_mem_cons.mpr ⟨h.1 hargs.1 flag, ih h.2 hargs.2 _⟩

theorem Residual.strip {a : Node α} (h : Residual a) (flag : Bool) :
    Residual (strip c flag a) := by
  induction h generalizing flag with
  | null => exact .null
  | comparison hargs =>
    unfold Exist.strip
    split
    · exact .null
    · exact .comparison hargs
  | nullTest harg => exact .nullTest harg
  | exist => exact .exist
  | bool hargs ih => exact .bool (stripList_forall (fun a ha _ => ih a ha) hargs flag)

theorem Residual.stripRoot {a : Node α} (h : Residual a) : Residual (stripRoot c a) := by
  unfold Exist.stripRoot
  split
  · exact h.strip false
  · exact h

theorem Plain.strip {a : Node α} (h : Plain a) : Plain (Exist.strip c false a) := by
  induction h with
  | null => exact .null
  | comparison hargs =>
    unfold Exist.strip
    split
    · exact .null
    · exact .comparison hargs
  | exist => exact .exist
  | bool hargs ih =>
    rw [Exist.strip, stripList_eq_map hargs]
    exact .bool (List.forall_mem_map.mpr ih)

theorem Plain.mapColumns (f : Var → Var) {a : Node α} (h : Plain a) :
    Plain (Infed.mapColumns f a) := by
  induction h with
  | null => exact .null
  | comparison hargs =>
    rw [Infed.mapColumns, mapColumnsList_eq_map]
    exact .comparison (List.forall_mem_map.mpr fun a ha => (hargs a ha).mapColumns f)
  | exist => exact .exist
  | bool _ ih =>
    rw [Infed.mapColumns, mapColumnsList_eq_map]
    exact .bool (List.forall_mem_map.mpr ih)

theorem Plain.comparisons_mapColumns (f : Var → Var) {a : Node α} (h : Plain a) :
    comparisons (Infed.mapColumns f a) = (comparisons a).map (Infed.mapColumns f) := by
  induction h with
  | null => rfl
  | comparison => simp [Infed.mapColumns, comparisons]
  | exist => rfl
  | bool _ ih =>
    rw [Infed.mapColumns, mapColumnsList_eq_map, comparisons, comparisons,
      comparisonsList_eq_flatMap, comparisonsList_eq_flatMap, List.flatMap_map, List.map_flatMap]
    exact List.flatMap_congr ih

theorem Residual.isExpression {a : Node α} (h : Residual a) : a.isExpression = true := by
  induction h with
  | null => rfl
  | comparison hargs => exact Node.areExpressions_iff.mpr fun a ha => (hargs a ha).term.isExpression
  | nullTest harg => exact harg.term.isExpression
  | exist => rfl
  | bool _ ih => exact Node.areExpressions_iff.mpr ih

/-! ### The FROM references -/

theorem substractLoop_eq_take {β : Type} {l : List β} {i : Nat} (hi : 1 ≤ i) :
    substractLoop l i = l.take i := by
  induction l generalizing i with
  | nil => simp [substractLoop]
  | cons x l ih =>
    rw [substractLoop]
    split
    · obtain rfl : i = 1 := by omega
      simp
    · rw [show ((i : Int) - 1) = ((i - 1 : Nat) : Int) by omega, ih (by omega),
        show i = i - 1 + 1 by omega, List.take_succ_cons, Nat.add_sub_cancel]

theorem substract_range {k m : Nat} (h : k < m) :
    substract (List.range' 1 m) k = List.range' 1 (m - k) := by
  rw [substract, List.length_range', show ((m : Int) - (k : Nat)) = ((m - k : Nat) : Int) by omega,
    substractLoop_eq_take (by omega)]
  exact List.ext_getElem (by simp) (by simp)

/-- One FROM reference is kept. -/
theorem substract_ne_nil {β : Type} {l : List β} (h : l ≠ []) (k : Nat) : substract l k ≠ [] := by
  obtain ⟨x, xs, rfl⟩ := List.exists_cons_of_ne_nil h
  rw [substract, substractLoop]
  split <;> exact List.cons_ne_nil _ _

/-! ### One round -/

/-- The FROM entries of the component. -/
theorem mapM_listNth {β : Type} {l : List β} {f : Nat → β}
    (h : ∀ v ∈ c, 1 ≤ v ∧ l[v - 1]? = some (f v)) :
    (c.mapM fun v => listNth l ((v : Int) - 1)) = some (c.map f) := by
  induction c with
  | nil => rfl
  | cons v c ih =>
    rw [List.forall_mem_cons] at h
    have hrest := ih h.2
    simp only [List.bind_eq_flatMap, List.pure_def] at hrest ⊢
    rw [List.flatMap_cons, List.singleton_append, List.mapM_cons, listNth_sub_one, h.1.2,
      hrest]
    rfl

/-- The added EXISTS, with the FROM entries `lrte` and the constraints `cs`. -/
def addedExists (c : List Nat) (targetList lrte cs : List (Node α)) : Node α :=
  .subLink .existsSublink .null
    (createFromQueryList lrte (constraintList cs) (keptTargets (columnInside c) targetList))

/-- From what `mutator_conn` leaves, `rewrite_connexe` fails only where it deletes from the range
table. -/
theorem rewriteConnexe_eq {targetList rtable lrte : List (Node α)} {fromlist : List Nat}
    {quals quals' : Node α} {ctx : TempContextConnexRew α}
    (htarget : Node.areExpressions targetList = true)
    (hconn : expressionTreeMutator mutatorConn quals (makeTempContextConnexRew c) =
      some (quals', ctx)) (hquals' : quals'.isExpression = true)
    (hlrte : (c.mapM fun v => listNth rtable ((v : Int) - 1)) = some lrte) :
    rewriteConnexe c (.query targetList rtable fromlist quals) =
      (deleteRtes c 0 rtable).map fun rtable' =>
        .query (keptTargets (columnOutside c) targetList) rtable' (substract fromlist c.length)
          (.boolExpr .andExpr [mapColumns (renumberVar c) quals',
            addedExists c targetList lrte ctx.listConstraint]) := by
  simp only [rewriteConnexe, hconn, hlrte, mutatorTarget, mutatorVarTarget,
    mutateTarget_list _ htarget, Option.bind_eq_bind, Option.bind_some, Node.elems]
  cases deleteRtes c 0 rtable with
  | none => rfl
  | some rtable' =>
    simp only [Option.bind_some, mutatorVarquals_maps.mutate quals' hquals']
    rfl

/-- The extraction of one table. -/
theorem rewriteConnexe_single {k : Nat} {targetList rtable : List (Node α)} {fromlist : List Nat}
    {rte quals quals' : Node α} {ctx : TempContextConnexRew α}
    (htarget : Node.areExpressions targetList = true)
    (hconn : expressionTreeMutator mutatorConn quals (makeTempContextConnexRew [k]) =
      some (quals', ctx)) (hquals' : quals'.isExpression = true)
    (hrte : rtable[k - 1]? = some rte) :
    rewriteConnexe [k] (.query targetList rtable fromlist quals) =
      some (.query (keptTargets (columnOutside [k]) targetList) (rtable.eraseIdx (k - 1))
        (substract fromlist 1) (.boolExpr .andExpr [mapColumns (renumberVar [k]) quals',
          addedExists [k] targetList [rte] ctx.listConstraint])) := by
  have hnth : listNth rtable ((k : Int) - 1) = some rte := by rw [listNth_sub_one, hrte]
  have hlrte : ([k].mapM fun v : Nat => listNth rtable ((v : Int) - 1)) = some [rte] := by
    simp [hrte]
  have hdelete : deleteRtes [k] 0 rtable = some (rtable.eraseIdx (k - 1)) := by
    simp [deleteRtes, hnth, show ((k : Int) - 1).toNat = k - 1 by omega]
  rw [rewriteConnexe_eq htarget hconn hquals' hlrte, hdelete]
  rfl

end Infed.Exist
