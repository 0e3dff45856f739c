import Infed.Eval
import Infed.TrueVar

/-! `split_optimize.c`: a NOT EXISTS whose WHERE has ORs becomes a conjunction of NOT EXISTS whose
WHEREs have none.  `trueSplit` keeps a queue of conditions; it takes the first one, and either the
condition has no OR, or the first OR in the order of the traversal is replaced by each of its
arguments in turn and the results join the queue. -/

namespace Infed.Split

variable {α : Type}

structure ContextSplit where
  whichIChoose : Nat
  haveToDuplicate : Bool
  stop : Bool

def makeContextSplit : ContextSplit where
  whichIChoose := 0
  haveToDuplicate := true
  stop := false

/-- One call of `split_rel`. -/
def splitRel : Mutator α ContextSplit
  | .null, _, context => some (.null, context)
  | .boolExpr .orExpr orArgs, traverse, context =>
    if context.stop then traverse context
    else do
      let myArg ← listNth orArgs context.whichIChoose
      if orArgs.length = context.whichIChoose + 1 then
        some (myArg, { context with stop := true, haveToDuplicate := false })
      else
        some (myArg, {
          stop := true
          whichIChoose := context.whichIChoose + 1
          haveToDuplicate := true })
  -- `expression_tree_mutator` does nothing with a sub-select
  | .query targetList rtable fromlist quals, _, context =>
    some (.query targetList rtable fromlist quals, context)
  | _, traverse, context => traverse context

/-- One call of `have_to_split`. -/
def haveToSplitStep : Walker α Unit
  | .null, _, s => (false, s)
  | .boolExpr .orExpr _, _, s => (true, s)
  | _, rest, s => rest s

def haveToSplit (node : Node α) : Bool := (walk haveToSplitStep node ()).1

/-- The inner loop of `trueSplit`; `none` if the fuel does not suffice. -/
def duplicate (backup : Node α) : Nat → ContextSplit → List (Node α) → Option (List (Node α))
  | 0, _, _ => none
  | fuel + 1, ctx, pile => do
    let (newNode, ctx) ← expressionTreeMutator splitRel backup { ctx with stop := false }
    if ctx.haveToDuplicate then duplicate backup fuel ctx (pile ++ [newNode])
    else some (pile ++ [newNode])

/-- The outer loop of `trueSplit`, with the queue and the results so far. -/
def trueSplitLoop : Nat → List (Node α) → List (Node α) → Option (List (Node α))
  | 0, _, _ => none
  | _ + 1, [], result => some result
  | fuel + 1, backup :: pile, result =>
    if haveToSplit backup then do
      let pile ← duplicate backup fuel makeContextSplit pile
      trueSplitLoop fuel pile result
    else trueSplitLoop fuel pile (result ++ [backup])

def trueSplit (fuel : Nat) (negNode : Node α) : Option (List (Node α)) :=
  trueSplitLoop fuel [negNode] []

/-- `NOT EXISTS (q)`, with the sub-link as `makeNode` leaves it. -/
def notExists (q : Node α) : Node α := .boolExpr .notExpr [.subLink .existsSublink .null q]

def optimizeSplit (fuel : Nat) : Node α → Option (Node α)
  | .query targetList rtable fromlist quals => do
    let result ← trueSplit fuel quals
    let nexits := result.map fun t => notExists (.query targetList rtable fromlist t)
    if nexits.length > 1 then some (.boolExpr .andExpr nexits) else listNth nexits 0
  | _ => none

/-! ### Conditions that can be split -/

mutual

/-- An expression without OR outside its sub-selects. -/
def orFree : Node α → Bool
  | .boolExpr .orExpr _ => false
  | .boolExpr _ args => orFreeList args
  | .opExpr _ args => orFreeList args
  | .nullTest _ arg => orFree arg
  | .subLink _ testexpr subselect => orFree testexpr && orFree subselect
  | .targetEntry expr _ => orFree expr
  | .list elems => orFreeList elems
  | .rangeTblEntry _ _ _ => false
  | _ => true

def orFreeList : List (Node α) → Bool
  | [] => true
  | node :: nodes => orFree node && orFreeList nodes

end

/-- ANDs and ORs, however nested, over expressions without OR. -/
inductive Splittable : Node α → Prop where
  | orFree {a} : orFree a = true → Splittable a
  | and {args} : (∀ a ∈ args, Splittable a) → Splittable (.boolExpr .andExpr args)
  | or {args} : args ≠ [] → (∀ a ∈ args, Splittable a) → Splittable (.boolExpr .orExpr args)

mutual

/-- The condition with its first OR replaced by each of the OR's arguments. -/
def choices : Node α → List (Node α)
  | .boolExpr .orExpr args => args
  | .boolExpr .andExpr args => (choicesList args).map (.boolExpr .andExpr)
  | _ => []

def choicesList : List (Node α) → List (List (Node α))
  | [] => []
  | node :: nodes =>
    if (choices node).isEmpty then (choicesList nodes).map (node :: ·)
    else (choices node).map (· :: nodes)

end

theorem orFreeList_iff {nodes : List (Node α)} :
    orFreeList nodes = true ↔ ∀ a ∈ nodes, orFree a = true := by
  induction nodes with
  | nil => simp [orFreeList]
  | cons a nodes ih => simp [orFreeList, ih]

mutual

theorem choices_of_orFree : ∀ a : Node α, orFree a = true → choices a = []
  | .boolExpr .andExpr args, h => by
    rw [choices, choicesList_of_orFree args (by simpa [orFree] using h), List.map_nil]
  | .boolExpr .orExpr _, h => by simp [orFree] at h
  | .boolExpr .notExpr _, _ => rfl
  | .null, _ | .var _, _ | .const _, _ | .param _, _ | .opExpr _ _, _ | .nullTest _ _, _
  | .subLink _ _ _, _ | .query _ _ _ _, _ | .rangeTblEntry _ _ _, _ | .targetEntry _ _, _
  | .list _, _ => rfl

theorem choicesList_of_orFree : ∀ nodes : List (Node α), orFreeList nodes = true →
    choicesList nodes = []
  | [], _ => rfl
  | node :: nodes, h => by
    rw [orFreeList, Bool.and_eq_true] at h
    rw [choicesList, choices_of_orFree node h.1, choicesList_of_orFree nodes h.2]
    rfl

end

section

variable {ch : Node α → List (Node α)} {nodes : List (Node α)}

/-- The list with the first element that has choices replaced by each of them. -/
def chooseFirst (ch : Node α → List (Node α)) : List (Node α) → List (List (Node α))
  | [] => []
  | node :: nodes =>
    if (ch node).isEmpty then (chooseFirst ch nodes).map (node :: ·)
    else (ch node).map (· :: nodes)

theorem choicesList_eq (nodes : List (Node α)) : choicesList nodes = chooseFirst choices nodes := by
  induction nodes with
  | nil => rfl
  | cons a nodes ih => rw [choicesList, chooseFirst, ih]

theorem chooseFirst_eq_nil_iff : chooseFirst ch nodes = [] ↔ ∀ a ∈ nodes, ch a = [] := by
  induction nodes with
  | nil => simp [chooseFirst]
  | cons a nodes ih =>
    rw [chooseFirst, List.forall_mem_cons, ← ih]
    cases h : ch a with
    | nil => simp
    | cons c cs => simp

/-- One element is replaced, the first one with choices. -/
theorem exists_chooseFirst_eq (hne : chooseFirst ch nodes ≠ []) :
    ∃ pre a post, nodes = pre ++ a :: post ∧ ch a ≠ [] ∧
      chooseFirst ch nodes = (ch a).map fun c => pre ++ c :: post := by
  induction nodes with
  | nil => exact absurd rfl hne
  | cons a nodes ih =>
    rw [chooseFirst] at hne ⊢
    split at hne
    · next hnil =>
      obtain ⟨pre, b, post, hnodes, hb, heq⟩ := ih (by simpa using hne)
      refine ⟨a :: pre, b, post, by rw [hnodes, List.cons_append], hb, ?_⟩
      rw [if_pos hnil, heq, List.map_map]
      rfl
    · next hcs =>
      refine ⟨[], a, nodes, rfl, by simpa using hcs, ?_⟩
      rw [if_neg hcs]
      rfl

theorem forall_mem_chooseFirst {P : Node α → Prop} (hnodes : ∀ a ∈ nodes, P a)
    (hch : ∀ a ∈ nodes, ∀ c ∈ ch a, P c) {cs : List (Node α)} (hcs : cs ∈ chooseFirst ch nodes) :
    ∀ a ∈ cs, P a := by
  obtain ⟨pre, a, post, rfl, -, heq⟩ := exists_chooseFirst_eq (List.ne_nil_of_mem hcs)
  rw [heq, List.mem_map] at hcs
  obtain ⟨c, hc, rfl⟩ := hcs
  simp only [List.forall_mem_append, List.forall_mem_cons] at hnodes hch ⊢
  exact ⟨hnodes.1, hch.2.1 c hc, hnodes.2.2⟩

/-- What goes over from the elements to their choices, all together. -/
theorem forall_iff_chooseFirst {Q : Node α → Prop}
    (hQ : ∀ a ∈ nodes, ch a ≠ [] → (Q a ↔ ∃ c ∈ ch a, Q c)) (hne : chooseFirst ch nodes ≠ []) :
    (∀ a ∈ nodes, Q a) ↔ ∃ cs ∈ chooseFirst ch nodes, ∀ a ∈ cs, Q a := by
  obtain ⟨pre, a, post, rfl, ha, heq⟩ := exists_chooseFirst_eq hne
  have hQa := hQ a (by simp) ha
  rw [heq]
  simp only [List.mem_map, exists_exists_and_eq_and, List.forall_mem_append, List.forall_mem_cons,
    hQa]
  constructor
  · rintro ⟨hpre, ⟨c, hc, hQc⟩, hpost⟩
    exact ⟨c, hc, hpre, hQc, hpost⟩
  · rintro ⟨c, hc, hpre, hQc, hpost⟩
    exact ⟨hpre, ⟨c, hc, hQc⟩, hpost⟩

/-- What goes over from the elements to their choices, at one place. -/
theorem exists_iff_chooseFirst {Q : Node α → Prop}
    (hQ : ∀ a ∈ nodes, ch a ≠ [] → (Q a ↔ ∃ c ∈ ch a, Q c)) (hne : chooseFirst ch nodes ≠ []) :
    (∃ a ∈ nodes, Q a) ↔ ∃ cs ∈ chooseFirst ch nodes, ∃ a ∈ cs, Q a := by
  obtain ⟨pre, a, post, rfl, ha, heq⟩ := exists_chooseFirst_eq hne
  have hQa := hQ a (by simp) ha
  rw [heq]
  simp only [List.mem_map, exists_exists_and_eq_and, List.mem_append, List.mem_cons,
    or_and_right, exists_or, exists_eq_left, hQa, and_or_left]
  obtain ⟨c, hc⟩ := List.exists_mem_of_ne_nil _ ha
  constructor
  · rintro (hpre | hQc | hpost)
    · exact .inl ⟨c, hc, hpre⟩
    · exact .inr (.inl hQc)
    · exact .inr (.inr ⟨c, hc, hpost⟩)
  · rintro (⟨-, -, hpre⟩ | hQc | ⟨-, -, hpost⟩)
    · exact .inl hpre
    · exact .inr (.inl hQc)
    · exact .inr (.inr hpost)

end

/-- Without a choice there is no OR. -/
theorem Splittable.orFree_of_choices {a : Node α} (h : Splittable a) (hnil : choices a = []) :
    Split.orFree a = true := by
  induction h with
  | orFree ha => exact ha
  | and _ ih =>
    rw [choices, List.map_eq_nil_iff] at hnil
    rw [Split.orFree, orFreeList_iff]
    · rw [choicesList_eq, chooseFirst_eq_nil_iff] at hnil
      exact fun a ha => ih a ha (hnil a ha)
    · simp
  | or hne _ _ => exact absurd hnil hne

/-! ### `have_to_split` -/

theorem walkList_haveToSplit (nodes : List (Node α)) :
    walkList haveToSplitStep nodes () = (nodes.any haveToSplit, ()) := by
  induction nodes with
  | nil => rfl
  | cons a nodes ih =>
    rw [walkList, List.any_cons]
    cases h : walk haveToSplitStep a () with
    | mk stop s => cases stop <;> simp [haveToSplit, h, ih]

theorem haveToSplit_and (args : List (Node α)) :
    haveToSplit (.boolExpr .andExpr args) = args.any haveToSplit := by
  rw [haveToSplit, walk]
  simp [haveToSplitStep, walkList_haveToSplit]

mutual

theorem haveToSplit_of_orFree : ∀ a : Node α, orFree a = true → haveToSplit a = false
  | .boolExpr .andExpr args, h => by
    rw [haveToSplit_and, any_haveToSplit_of_orFree args (by simpa [orFree] using h)]
  | .boolExpr .orExpr _, h => by simp [orFree] at h
  | .boolExpr .notExpr args, h => by
    rw [haveToSplit, walk]
    simpa [haveToSplitStep, walkList_haveToSplit] using
      any_haveToSplit_of_orFree args (by simpa [orFree] using h)
  | .opExpr _ args, h => by
    rw [haveToSplit, walk]
    simpa [haveToSplitStep, walkList_haveToSplit] using
      any_haveToSplit_of_orFree args (by simpa [orFree] using h)
  | .nullTest _ arg, h => by
    rw [haveToSplit, walk]
    exact haveToSplit_of_orFree arg (by simpa [orFree] using h)
  | .subLink _ testexpr subselect, h => by
    rw [orFree, Bool.and_eq_true] at h
    have htest := haveToSplit_of_orFree testexpr h.1
    have hsub := haveToSplit_of_orFree subselect h.2
    rw [haveToSplit] at htest hsub
    rw [haveToSplit, walk]
    simp [haveToSplitStep, htest, hsub]
  | .targetEntry expr _, h => by
    rw [haveToSplit, walk]
    exact haveToSplit_of_orFree expr (by simpa [orFree] using h)
  | .list elems, h => by
    rw [haveToSplit, walk]
    simpa [haveToSplitStep, walkList_haveToSplit] using
      any_haveToSplit_of_orFree elems (by simpa [orFree] using h)
  | .rangeTblEntry _ _ _, _ | .null, _ | .var _, _ | .const _, _ | .param _, _
  | .query _ _ _ _, _ => rfl

theorem any_haveToSplit_of_orFree : ∀ nodes : List (Node α), orFreeList nodes = true →
    nodes.any haveToSplit = false
  | [], _ => rfl
  | node :: nodes, h => by
    rw [orFreeList, Bool.and_eq_true] at h
    rw [List.any_cons, haveToSplit_of_orFree node h.1, any_haveToSplit_of_orFree nodes h.2]
    rfl

end

theorem Splittable.haveToSplit_of_choices {a : Node α} (h : Splittable a) (hne : choices a ≠ []) :
    haveToSplit a = true := by
  induction h with
  | orFree ha => exact absurd (choices_of_orFree _ ha) hne
  | and _ ih =>
    rw [choices, ne_eq, List.map_eq_nil_iff, choicesList_eq, chooseFirst_eq_nil_iff] at hne
    push Not at hne
    obtain ⟨a, ha, hchoices⟩ := hne
    rw [haveToSplit_and, List.any_eq_true]
    exact ⟨a, ha, ih a ha hchoices⟩
  | or _ _ _ => rfl

/-! ### `split_rel` -/

/-- The context after the `i`-th of `n` arguments has been chosen. -/
def chosen (n i : Nat) : ContextSplit :=
  if n = i + 1 then ⟨i, false, true⟩ else ⟨i + 1, true, true⟩

mutual

theorem splitRel_copy : ∀ (a : Node α) (ctx : ContextSplit), orFree a = true →
    mutate splitRel a ctx = some (a, ctx)
  | .boolExpr .andExpr args, ctx, h | .boolExpr .notExpr args, ctx, h | .opExpr _ args, ctx, h
  | .list args, ctx, h => by
    have hargs := splitRelList_copy args ctx (by simpa [orFree] using h)
    simp [mutate, splitRel, hargs]
  | .boolExpr .orExpr _, _, h => by simp [orFree] at h
  | .nullTest _ arg, ctx, h | .targetEntry arg _, ctx, h => by
    have harg := splitRel_copy arg ctx (by simpa [orFree] using h)
    simp [mutate, splitRel, harg]
  | .subLink _ testexpr subselect, ctx, h => by
    rw [orFree, Bool.and_eq_true] at h
    have htest := splitRel_copy testexpr ctx h.1
    have hsub := splitRel_copy subselect ctx h.2
    simp [mutate, splitRel, htest, hsub]
  | .rangeTblEntry _ _ _, _, h => by simp [orFree] at h
  | .null, _, _ | .var _, _, _ | .const _, _, _ | .param _, _, _ | .query _ _ _ _, _, _ => rfl

theorem splitRelList_copy : ∀ (nodes : List (Node α)) (ctx : ContextSplit),
    orFreeList nodes = true → mutateList splitRel nodes ctx = some (nodes, ctx)
  | [], _, _ => rfl
  | node :: nodes, ctx, h => by
    rw [orFreeList, Bool.and_eq_true] at h
    exact mutateList_cons (splitRel_copy node ctx h.1) (splitRelList_copy nodes ctx h.2)

end

/-- After a choice, the rest of the condition is copied. -/
theorem Splittable.splitRel_stop {a : Node α} (h : Splittable a) {ctx : ContextSplit}
    (hstop : ctx.stop = true) : mutate splitRel a ctx = some (a, ctx) := by
  induction h with
  | orFree ha => exact splitRel_copy _ ctx ha
  | and _ ih | or _ _ ih => simp [mutate, splitRel, hstop, mutateList_fixed ih]

theorem chosen_stop (n i : Nat) : (chosen n i).stop = true := by
  rw [chosen]
  split <;> rfl

/-- `split_rel` on a list: nothing before the first element with choices, a choice there, and
nothing after it. -/
theorem splitRelList_chooseFirst {ch : Node α → List (Node α)} {nodes : List (Node α)}
    (hcopy : ∀ a ∈ nodes, ch a = [] → ∀ ctx, mutate splitRel a ctx = some (a, ctx))
    (hstop : ∀ a ∈ nodes, ∀ ctx : ContextSplit, ctx.stop = true →
      mutate splitRel a ctx = some (a, ctx)) {i : Nat} {dup : Bool}
    (hchoice : ∀ a ∈ nodes, ∀ c, (ch a)[i]? = some c →
      mutate splitRel a ⟨i, dup, false⟩ = some (c, chosen (ch a).length i))
    {cs : List (Node α)} (hcs : (chooseFirst ch nodes)[i]? = some cs) :
    mutateList splitRel nodes ⟨i, dup, false⟩ =
      some (cs, chosen (chooseFirst ch nodes).length i) := by
  induction nodes generalizing cs with
  | nil => simp [chooseFirst] at hcs
  | cons a nodes ih =>
    rw [List.forall_mem_cons] at hcopy hstop hchoice
    rw [chooseFirst] at hcs ⊢
    split at hcs
    · next hnil =>
      rw [List.getElem?_map, Option.map_eq_some_iff] at hcs
      obtain ⟨cs', hcs', rfl⟩ := hcs
      rw [if_pos hnil, List.length_map]
      exact mutateList_cons (hcopy.1 (List.isEmpty_iff.mp hnil) _)
        (ih hcopy.2 hstop.2 hchoice.2 hcs')
    · next hne =>
      rw [List.getElem?_map, Option.map_eq_some_iff] at hcs
      obtain ⟨c, hc, rfl⟩ := hcs
      rw [if_neg hne, List.length_map]
      exact mutateList_cons (hchoice.1 c hc)
        (mutateList_fixed fun b hb => hstop.2 b hb _ (chosen_stop _ _))

/-- `split_rel` replaces an OR by its `i`-th argument. -/
theorem splitRel_or {args : List (Node α)} {i : Nat} {dup : Bool} {c : Node α}
    (hc : args[i]? = some c) :
    mutate splitRel (.boolExpr .orExpr args) ⟨i, dup, false⟩ = some (c, chosen args.length i) := by
  have hnth : listNth args (i : Int) = some c := by rw [listNth_natCast, hc]
  rw [mutate, chosen]
  by_cases hlast : args.length = i + 1
  · simp [splitRel, hnth, hlast]
  · simp [splitRel, hnth, hlast]

/-- `split_rel` makes the `i`-th choice. -/
theorem Splittable.splitRel_choice {a : Node α} (h : Splittable a) {i : Nat} {dup : Bool}
    {c : Node α} (hc : (choices a)[i]? = some c) :
    mutate splitRel a ⟨i, dup, false⟩ = some (c, chosen (choices a).length i) := by
  induction h generalizing c with
  | orFree ha => simp [choices_of_orFree _ ha] at hc
  | @and args hargs ih =>
    rw [choices, choicesList_eq, List.getElem?_map, Option.map_eq_some_iff] at hc
    obtain ⟨cs, hcs, rfl⟩ := hc
    have hlist := splitRelList_chooseFirst
      (fun a ha hnil ctx => splitRel_copy a ctx ((hargs a ha).orFree_of_choices hnil))
      (fun a ha ctx => (hargs a ha).splitRel_stop) (fun a ha c => ih a ha) hcs
    rw [choices, choicesList_eq, List.length_map]
    simp [mutate, splitRel, hlist]
  | or _ _ _ => exact splitRel_or hc

/-! ### The loops -/

mutual

/-- More than the number of turns that the outer loop takes for the condition. -/
def weight : Node α → Nat
  | .boolExpr .orExpr args => weightSum args + 1
  | .boolExpr .andExpr args => weightProd args
  | _ => 1

def weightSum : List (Node α) → Nat
  | [] => 0
  | node :: nodes => weight node + weightSum nodes

def weightProd : List (Node α) → Nat
  | [] => 1
  | node :: nodes => weight node * weightProd nodes

end

mutual

theorem weight_pos : ∀ a : Node α, 0 < weight a
  | .boolExpr .orExpr _ => Nat.succ_pos _
  | .boolExpr .andExpr args => by
    rw [weight]
    exact weightProd_pos args
  | .boolExpr .notExpr _ | .null | .var _ | .const _ | .param _ | .opExpr _ _ | .nullTest _ _
  | .subLink _ _ _ | .query _ _ _ _ | .rangeTblEntry _ _ _ | .targetEntry _ _
  | .list _ => Nat.one_pos

theorem weightProd_pos : ∀ nodes : List (Node α), 0 < weightProd nodes
  | [] => Nat.one_pos
  | node :: nodes => Nat.mul_pos (weight_pos node) (weightProd_pos nodes)

end

theorem weightSum_cons_each (cs as : List (Node α)) :
    weightSum ((cs.map (· :: as)).map (.boolExpr .andExpr)) = weightSum cs * weightProd as := by
  induction cs with
  | nil => simp [weightSum]
  | cons c cs ih =>
    rw [List.map_cons, List.map_cons, weightSum, ih, weight, weightSum, weightProd, Nat.add_mul]

theorem weightProd_cons_each (a : Node α) (css : List (List (Node α))) :
    weightSum ((css.map (a :: ·)).map (.boolExpr .andExpr)) =
      weight a * weightSum (css.map (.boolExpr .andExpr)) := by
  induction css with
  | nil => simp [weightSum]
  | cons cs css ih =>
    rw [List.map_cons, List.map_cons, weightSum, ih, List.map_cons, weightSum, weight, weight,
      weightProd, Nat.mul_add]

theorem weightProd_choices {nodes : List (Node α)}
    (hnodes : ∀ a ∈ nodes, choices a ≠ [] → weightSum (choices a) < weight a)
    (hne : choicesList nodes ≠ []) :
    weightSum ((choicesList nodes).map (.boolExpr .andExpr)) < weightProd nodes := by
  induction nodes with
  | nil => exact absurd rfl hne
  | cons a nodes ih =>
    rw [choicesList] at hne ⊢
    split at hne
    · next hnil =>
      rw [if_pos hnil, weightProd_cons_each, weightProd]
      exact Nat.mul_lt_mul_of_pos_left
        (ih (fun b hb => hnodes b (List.mem_cons_of_mem _ hb)) (by simpa using hne)) (weight_pos a)
    · next hcs =>
      rw [if_neg hcs, weightSum_cons_each, weightProd]
      exact Nat.mul_lt_mul_of_pos_right (hnodes a List.mem_cons_self (by simpa using hcs))
        (weightProd_pos nodes)

/-- The choices together weigh less than the condition. -/
theorem Splittable.weight_choices {a : Node α} (h : Splittable a) (hne : choices a ≠ []) :
    weightSum (choices a) < weight a := by
  induction h with
  | orFree ha => exact absurd (choices_of_orFree _ ha) hne
  | and _ ih =>
    rw [choices, ne_eq, List.map_eq_nil_iff] at hne
    rw [choices, weight]
    exact weightProd_choices ih hne
  | or _ _ _ => exact Nat.lt_succ_self _

theorem Splittable.of_choices {a : Node α} (h : Splittable a) {c : Node α} (hc : c ∈ choices a) :
    Splittable c := by
  induction h generalizing c with
  | orFree ha => simp [choices_of_orFree _ ha] at hc
  | and hargs ih =>
    rw [choices, choicesList_eq, List.mem_map] at hc
    obtain ⟨cs, hcs, rfl⟩ := hc
    exact .and (forall_mem_chooseFirst hargs (fun a ha c => ih a ha) hcs)
  | or _ hargs _ => exact hargs c hc

/-- The condition is true exactly where one of the choices is. -/
theorem Splittable.evalCond_choices {I : Interp α} {D : Database α} {ρ : Env α} {a : Node α}
    (h : Splittable a) (hne : choices a ≠ []) :
    evalCond I D a ρ = .true ↔ ∃ c ∈ choices a, evalCond I D c ρ = .true := by
  induction h with
  | orFree ha => exact absurd (choices_of_orFree _ ha) hne
  | and _ ih =>
    rw [choices, ne_eq, List.map_eq_nil_iff, choicesList_eq] at hne
    rw [choices, choicesList_eq, evalCond_and_eq_true, forall_iff_chooseFirst ih hne]
    simp only [List.mem_map, exists_exists_and_eq_and, evalCond_and_eq_true]
  | or _ _ _ => rw [choices, evalCond_or_eq_true]

/-! ### The queue -/

/-- What the loop has to do for a queue, if a condition counts as `w` says. -/
def load (w : Node α → Nat) : List (Node α) → Nat
  | [] => 0
  | node :: nodes => w node + load w nodes

theorem load_append (w : Node α → Nat) (as bs : List (Node α)) :
    load w (as ++ bs) = load w as + load w bs := by
  induction as with
  | nil => simp [load]
  | cons a as ih => simp [load, ih, Nat.add_assoc]

theorem load_weight (nodes : List (Node α)) : load weight nodes = weightSum nodes := by
  induction nodes with
  | nil => rfl
  | cons a nodes ih => rw [load, weightSum, ih]

/-- On the conditions with `S`, a turn of the outer loop makes room for the choices `ch`, which
count less than the condition; without choices the condition is a result. -/
structure Splits (S : Node α → Prop) (ch : Node α → List (Node α)) (w : Node α → Nat) : Prop where
  pos : ∀ a, 0 < w a
  stop : ∀ a, S a → ch a = [] → haveToSplit a = false
  split : ∀ a, S a → ch a ≠ [] → haveToSplit a = true
  choose : ∀ a, S a → ∀ i dup c, (ch a)[i]? = some c →
    expressionTreeMutator splitRel a ⟨i, dup, false⟩ = some (c, chosen (ch a).length i)
  closed : ∀ a, S a → ∀ c ∈ ch a, S c
  lighter : ∀ a, S a → ch a ≠ [] → load w (ch a) < w a

/-- With enough fuel the outer loop adds `out` to the results for the queue `pile`; what goes over
from a condition to one of its choices, and back, goes over from the queue to the results. -/
structure Results (S : Node α → Prop) (ch : Node α → List (Node α)) (w : Node α → Nat)
    (pile out : List (Node α)) : Prop where
  returns : ∀ fuel result, load w pile < fuel →
    trueSplitLoop fuel pile result = some (result ++ out)
  finished : ∀ r ∈ out, S r ∧ ch r = []
  ne_nil : pile ≠ [] → out ≠ []
  keeps : ∀ Q : Node α → Prop, (∀ a, S a → ch a ≠ [] → (Q a ↔ ∃ c ∈ ch a, Q c)) →
    ((∃ a ∈ pile, Q a) ↔ ∃ r ∈ out, Q r)

namespace Splits

variable {S : Node α → Prop} {ch : Node α → List (Node α)} {w : Node α → Nat}

/-- The inner loop appends the choices from the `i`-th on. -/
theorem duplicate (h : Splits S ch w) {backup : Node α} (hb : S backup) {fuel i : Nat}
    {dup stop : Bool} {pile : List (Node α)} (hi : i < (ch backup).length)
    (hfuel : (ch backup).length ≤ fuel + i) :
    duplicate backup fuel ⟨i, dup, stop⟩ pile = some (pile ++ (ch backup).drop i) := by
  induction fuel generalizing i dup stop pile with
  | zero => omega
  | succ fuel ih =>
    rw [Split.duplicate, h.choose backup hb i dup _ (List.getElem?_eq_getElem hi),
      Option.bind_eq_bind, Option.bind_some, chosen, List.drop_eq_getElem_cons hi]
    by_cases hlast : (ch backup).length = i + 1
    · rw [if_pos hlast, List.drop_eq_nil_of_le (by omega)]
      rfl
    · rw [if_neg hlast]
      simp only [if_true]
      rw [ih (by omega) (by omega), List.append_assoc]
      rfl

theorem nil : Results S ch w [] [] := by
  refine ⟨fun fuel result hfuel => ?_, by simp, by simp, by simp⟩
  cases fuel with
  | zero => omega
  | succ fuel => simp [trueSplitLoop]

/-- A condition without choices at the head of the queue is a result. -/
theorem keep (h : Splits S ch w) {b : Node α} {pile out : List (Node α)} (hb : S b)
    (hnil : ch b = []) (hout : Results S ch w pile out) :
    Results S ch w (b :: pile) (b :: out) := by
  refine ⟨fun fuel result hfuel => ?_, List.forall_mem_cons.mpr ⟨⟨hb, hnil⟩, hout.finished⟩,
    by simp, fun Q hQ => ?_⟩
  · have hpos := h.pos b
    rw [load] at hfuel
    cases fuel with
    | zero => omega
    | succ fuel =>
      rw [trueSplitLoop, h.stop b hb hnil, if_neg Bool.false_ne_true,
        hout.returns fuel _ (by omega), List.append_assoc]
      rfl
  · rw [List.exists_mem_cons_iff, List.exists_mem_cons_iff, hout.keeps Q hQ]

theorem length_le_load (h : Splits S ch w) (nodes : List (Node α)) :
    nodes.length ≤ load w nodes := by
  induction nodes with
  | nil => simp [load]
  | cons a nodes ih =>
    have := h.pos a
    simp only [List.length_cons, load]
    omega

/-- A condition with choices at the head of the queue makes room for them at the end. -/
theorem expand (h : Splits S ch w) {b : Node α} {pile out : List (Node α)} (hb : S b)
    (hne : ch b ≠ []) (hout : Results S ch w (pile ++ ch b) out) :
    Results S ch w (b :: pile) out := by
  have hlighter := h.lighter b hb hne
  refine ⟨fun fuel result hfuel => ?_, hout.finished, fun _ => hout.ne_nil (by simp [hne]),
    fun Q hQ => ?_⟩
  · rw [load] at hfuel
    cases fuel with
    | zero => omega
    | succ fuel =>
      have hlen := h.length_le_load (ch b)
      have hdup : Split.duplicate b fuel makeContextSplit pile = some (pile ++ ch b) :=
        h.duplicate hb (List.length_pos_iff.mpr hne) (by omega)
      have hload : load w (pile ++ ch b) < fuel := by
        rw [load_append]
        omega
      rw [trueSplitLoop, h.split b hb hne, if_pos rfl, hdup]
      exact hout.returns fuel result hload
  · rw [← hout.keeps Q hQ, List.exists_mem_cons_iff, hQ b hb hne]
    simp only [List.mem_append, or_and_right, exists_or]
    exact or_comm

theorem exists_results (h : Splits S ch w) (N : Nat) {pile : List (Node α)} (hN : load w pile ≤ N)
    (hpile : ∀ a ∈ pile, S a) : ∃ out, Results S ch w pile out := by
  -- every turn of the loop makes the queue lighter
  induction N generalizing pile with
  | zero =>
    cases pile with
    | nil => exact ⟨[], nil⟩
    | cons b pile =>
      have := h.pos b
      rw [load] at hN
      omega
  | succ N ih =>
    cases pile with
    | nil => exact ⟨[], nil⟩
    | cons b pile =>
      rw [List.forall_mem_cons] at hpile
      obtain ⟨hb, hpile⟩ := hpile
      rw [load] at hN
      have hpos := h.pos b
      by_cases hnil : ch b = []
      · have hload : load w pile ≤ N := by omega
        obtain ⟨out, hout⟩ := ih hload hpile
        exact ⟨_, h.keep hb hnil hout⟩
      · have hlighter := h.lighter b hb hnil
        have hload : load w (pile ++ ch b) ≤ N := by
          rw [load_append]
          omega
        obtain ⟨out, hout⟩ := ih hload (List.forall_mem_append.mpr ⟨hpile, h.closed b hb⟩)
        exact ⟨out, h.expand hb hnil hout⟩

end Splits

/-- A condition without OR, or one that can be split and has AND at its root. -/
def Queued (a : Node α) : Prop :=
  orFree a = true ∨ ∃ args, a = .boolExpr .andExpr args ∧ Splittable a

theorem Queued.splittable {a : Node α} (h : Queued a) : Splittable a :=
  h.elim .orFree fun ⟨_, _, ha⟩ => ha

theorem splits_queued : Splits (α := α) Queued choices weight where
  pos := weight_pos
  stop a ha hnil := haveToSplit_of_orFree a (ha.splittable.orFree_of_choices hnil)
  split a ha hne := ha.splittable.haveToSplit_of_choices hne
  choose a ha i dup c hc := by
    rcases ha with hfree | ⟨args, rfl, ha⟩
    · simp [choices_of_orFree a hfree] at hc
    · exact ha.splitRel_choice hc
  closed a ha c hc := by
    rcases ha with hfree | ⟨args, rfl, ha⟩
    · simp [choices_of_orFree a hfree] at hc
    · have hsplit := ha.of_choices hc
      rw [choices, List.mem_map] at hc
      obtain ⟨cs, _, rfl⟩ := hc
      exact .inr ⟨cs, rfl, hsplit⟩
  lighter a ha hne := by
    rw [load_weight]
    exact ha.splittable.weight_choices hne

/-- With enough fuel the outer loop adds `out` to the results for the queue `pile`: conditions
without OR, of which one is true exactly where one of the queue is. -/
structure SplitsTo (pile out : List (Node α)) : Prop where
  returns : ∀ fuel result, weightSum pile < fuel →
    trueSplitLoop fuel pile result = some (result ++ out)
  orFree : ∀ r ∈ out, orFree r = true
  ne_nil : pile ≠ [] → out ≠ []
  sound : ∀ (I : Interp α) (D : Database α) (ρ : Env α),
    (∃ a ∈ pile, evalCond I D a ρ = .true) ↔ ∃ r ∈ out, evalCond I D r ρ = .true

theorem exists_splitsTo {pile : List (Node α)} (hpile : ∀ a ∈ pile, Queued a) :
    ∃ out, SplitsTo pile out := by
  obtain ⟨out, hout⟩ := splits_queued.exists_results _ le_rfl hpile
  refine ⟨out, fun fuel result hfuel => ?_, fun r hr => ?_, hout.ne_nil, fun I D ρ => ?_⟩
  · rw [← load_weight] at hfuel
    exact hout.returns fuel result hfuel
  · obtain ⟨hqueued, hnil⟩ := hout.finished r hr
    exact hqueued.splittable.orFree_of_choices hnil
  · exact hout.keeps (evalCond I D · ρ = .true) fun a ha hne => ha.splittable.evalCond_choices hne

/-! ### NOT EXISTS -/

section

variable {I : Interp α} {D : Database α} {ρ : Env α} {targetList rtable : List (Node α)}
  {fromlist : List Nat}

theorem evalCond_notExists_eq_true {quals : Node α} :
    evalCond I D (notExists (.query targetList rtable fromlist quals)) ρ = .true ↔
      ∀ z ∈ combinations (evalRtable I D rtable (ρ.push [])) fromlist,
        ¬evalCond I D quals (ρ.push z) = .true := by
  rw [notExists, evalCond_not, Kleene.not_eq_true, ← evalCond_exists_ne_true rfl, ne_eq,
    evalCond_exists_eq_true]
  simp only [not_exists, not_and]

theorem evalCond_notExists_ne_unknown (q : Node α) : evalCond I D (notExists q) ρ ≠ .unknown := by
  rw [notExists, evalCond_not, evalCond]
  cases (evalQuery I D q ρ).isEmpty <;> decide

/-- A conjunction of NOT EXISTS has the truth value of the NOT EXISTS that it was made from. -/
theorem evalCond_split {quals : Node α} {result : List (Node α)}
    (hsound : ∀ ρ, evalCond I D quals ρ = .true ↔ ∃ r ∈ result, evalCond I D r ρ = .true) :
    evalCond I D (.boolExpr .andExpr
        (result.map fun t => notExists (.query targetList rtable fromlist t))) ρ =
      evalCond I D (notExists (.query targetList rtable fromlist quals)) ρ := by
  refine Kleene.eq_of_eq_true_iff ?_ (evalCond_notExists_ne_unknown _) ?_
  · rw [evalCond, evalConds_eq_map]
    refine Kleene.conj_ne_unknown fun t ht => ?_
    simp only [List.map_map, List.mem_map] at ht
    obtain ⟨r, _, rfl⟩ := ht
    exact evalCond_notExists_ne_unknown _
  · simp only [evalCond_and_eq_true, List.forall_mem_map, evalCond_notExists_eq_true, hsound,
      not_exists, not_and]
    exact ⟨fun h z hz r hr => h r hr z hz, fun h r hr z hz => h z hz r hr⟩

end

/-- On a condition with AND at its root, `trueSplit` returns conditions without OR, of which one is
true exactly where the condition is; and `optimize_split` returns a condition with the truth value
of NOT EXISTS. -/
theorem optimizeSplit_notExists (args : List (Node α)) (h : Splittable (.boolExpr .andExpr args)) :
    ∃ result, (∀ fuel > weight (.boolExpr .andExpr args),
        trueSplit fuel (.boolExpr .andExpr args) = some result) ∧
      (∀ r ∈ result, orFree r = true) ∧
      (∀ (I : Interp α) (D : Database α) (ρ : Env α),
        evalCond I D (.boolExpr .andExpr args) ρ = .true ↔
          ∃ r ∈ result, evalCond I D r ρ = .true) ∧
      ∀ (targetList rtable : List (Node α)) (fromlist : List Nat), ∃ node,
        (∀ fuel > weight (.boolExpr .andExpr args), optimizeSplit fuel
          (.query targetList rtable fromlist (.boolExpr .andExpr args)) = some node) ∧
        ∀ (I : Interp α) (D : Database α) (ρ : Env α), evalCond I D node ρ = evalCond I D
          (notExists (.query targetList rtable fromlist (.boolExpr .andExpr args))) ρ := by
  have hqueued : Queued (.boolExpr .andExpr args) := .inr ⟨args, rfl, h⟩
  obtain ⟨result, hto⟩ := exists_splitsTo (List.forall_mem_singleton.mpr hqueued)
  have hreturns : ∀ fuel > weight (.boolExpr .andExpr args),
      trueSplit fuel (.boolExpr .andExpr args) = some result := fun fuel hfuel =>
    hto.returns fuel [] (by simpa [weightSum] using hfuel)
  have hsound : ∀ (I : Interp α) (D : Database α) (ρ : Env α),
      evalCond I D (.boolExpr .andExpr args) ρ = .true ↔
        ∃ r ∈ result, evalCond I D r ρ = .true := by
    intro I D ρ
    simpa using hto.sound I D ρ
  refine ⟨result, hreturns, hto.orFree, hsound, fun targetList rtable fromlist => ?_⟩
  obtain ⟨r, rest, rfl⟩ := List.exists_cons_of_ne_nil (hto.ne_nil (by simp))
  cases rest with
  | nil =>
    -- a single NOT EXISTS is returned without an AND around it
    refine ⟨notExists (.query targetList rtable fromlist r), fun fuel hfuel => ?_, fun I D ρ => ?_⟩
    · simp [optimizeSplit, hreturns fuel hfuel, listNth]
    · rw [← evalCond_split (hsound I D), List.map_singleton, evalCond, evalConds, evalConds,
        Kleene.conj_singleton]
  | cons r' rest =>
    refine ⟨_, fun fuel hfuel => ?_, fun I D ρ => evalCond_split (hsound I D)⟩
    simp [optimizeSplit, hreturns fuel hfuel]

/-- `(s.a = 1 OR (s.a = 2 AND s.b IS NULL)) AND s.b = r.b`, in a sub-select over `s` of a query over
`r`. -/
def alternatives : List (Node Int) :=
  [.boolExpr .orExpr [.opExpr 96 [.var ⟨1, 1, 0⟩, .const (some 1)],
      .boolExpr .andExpr [.opExpr 96 [.var ⟨1, 1, 0⟩, .const (some 2)],
        .nullTest .isNull (.var ⟨1, 2, 0⟩)]],
    .opExpr 96 [.var ⟨1, 2, 0⟩, .var ⟨1, 2, 1⟩]]

theorem alternatives_splittable : Splittable (.boolExpr .andExpr alternatives) := by
  refine .and ?_
  simp only [alternatives, List.forall_mem_cons, List.not_mem_nil, false_imp_iff, implies_true,
    and_true]
  refine ⟨.or (by simp) ?_, .orFree rfl⟩
  simp only [List.forall_mem_cons, List.not_mem_nil, false_imp_iff, implies_true, and_true]
  exact ⟨.orFree rfl, .orFree rfl⟩

/-- For `NOT EXISTS (SELECT FROM s WHERE (s.a = 1 OR (s.a = 2 AND s.b IS NULL)) AND s.b = r.b)`. -/
theorem optimizeSplit_notExists_alternatives :
    ∃ result, trueSplit 5 (.boolExpr .andExpr alternatives) = some result ∧
      (∀ r ∈ result, orFree r = true) ∧
      (∀ (I : Interp Int) (D : Database Int) (ρ : Env Int),
        evalCond I D (.boolExpr .andExpr alternatives) ρ = .true ↔
          ∃ r ∈ result, evalCond I D r ρ = .true) ∧
      ∃ node, optimizeSplit 5 (.query [] [.rangeTblEntry .rteRelation 2 .null] [1]
          (.boolExpr .andExpr alternatives)) = some node ∧
        ∀ (I : Interp Int) (D : Database Int) (ρ : Env Int), evalCond I D node ρ = evalCond I D
          (notExists (.query [] [.rangeTblEntry .rteRelation 2 .null] [1]
            (.boolExpr .andExpr alternatives))) ρ := by
  obtain ⟨result, hreturns, hfree, hsound, hnode⟩ :=
    optimizeSplit_notExists alternatives alternatives_splittable
  obtain ⟨node, hoptimize, hvalue⟩ := hnode [] [.rangeTblEntry .rteRelation 2 .null] [1]
  exact ⟨result, hreturns 5 (by decide), hfree, hsound, node, hoptimize 5 (by decide), hvalue⟩

end Infed.Split
