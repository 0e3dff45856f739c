import Infed.Split.Deep
import Mathlib.Algebra.Group.Nat.Defs

/-! The size of what `trueSplit` returns.  Whatever the order in which its queue takes the ORs, it
returns one condition for each way to choose an argument of every OR: the disjunctive normal form,
of which `optimize_split` makes as many copies of the sub-select. -/

namespace Infed.Split

variable {α : Type}

mutual

/-- The conditions that are left when in every OR one argument is chosen. -/
def resolutions : Node α → List (Node α)
  | .boolExpr .orExpr args => resolutionsOr args
  | .boolExpr .andExpr args => (resolutionsAnd args).map (.boolExpr .andExpr)
  | a => [a]

def resolutionsOr : List (Node α) → List (Node α)
  | [] => []
  | node :: nodes => resolutions node ++ resolutionsOr nodes

def resolutionsAnd : List (Node α) → List (List (Node α))
  | [] => [[]]
  | node :: nodes => (resolutions node).flatMap fun r => (resolutionsAnd nodes).map (r :: ·)

end

mutual

/-- The number of those conditions: a sum over the arguments of an OR, a product over those of an
AND. -/
def ways : Node α → Nat
  | .boolExpr .orExpr args => waysOr args
  | .boolExpr .andExpr args => waysAnd args
  | _ => 1

def waysOr : List (Node α) → Nat
  | [] => 0
  | node :: nodes => ways node + waysOr nodes

def waysAnd : List (Node α) → Nat
  | [] => 1
  | node :: nodes => ways node * waysAnd nodes

end

theorem resolutionsOr_eq_flatMap (nodes : List (Node α)) :
    resolutionsOr nodes = nodes.flatMap resolutions := by
  induction nodes with
  | nil => rfl
  | cons a nodes ih => rw [resolutionsOr, ih, List.flatMap_cons]

mutual

theorem length_resolutions : ∀ a : Node α, (resolutions a).length = ways a
  | .boolExpr .orExpr args => by
    rw [resolutions, ways]
    exact length_resolutionsOr args
  | .boolExpr .andExpr args => by
    rw [resolutions, ways, List.length_map]
    exact length_resolutionsAnd args
  | .boolExpr .notExpr _ | .null | .var _ | .const _ | .param _ | .opExpr _ _ | .nullTest _ _
  | .subLink _ _ _ | .query _ _ _ _ | .rangeTblEntry _ _ _ | .targetEntry _ _
  | .list _ => rfl

theorem length_resolutionsOr : ∀ nodes : List (Node α),
    (resolutionsOr nodes).length = waysOr nodes
  | [] => rfl
  | node :: nodes => by
    rw [resolutionsOr, waysOr, List.length_append, length_resolutions node,
      length_resolutionsOr nodes]

theorem length_resolutionsAnd : ∀ nodes : List (Node α),
    (resolutionsAnd nodes).length = waysAnd nodes
  | [] => rfl
  | node :: nodes => by
    rw [resolutionsAnd, waysAnd, List.length_flatMap, ← length_resolutions node,
      ← length_resolutionsAnd nodes]
    simp

end

/-! ### One turn of the loop -/

mutual

theorem resolutions_of_orFree : ∀ a : Node α, orFree a = true → resolutions a = [a]
  | .boolExpr .andExpr args, h => by
    rw [orFree] at h
    · rw [resolutions, resolutionsAnd_of_orFree args h]
      rfl
    · simp
  | .boolExpr .orExpr _, h => by
    rw [orFree] at h
    cases h
  | .boolExpr .notExpr _, _ | .null, _ | .var _, _ | .const _, _ | .param _, _ | .opExpr _ _, _
  | .nullTest _ _, _ | .subLink _ _ _, _ | .query _ _ _ _, _ | .rangeTblEntry _ _ _, _
  | .targetEntry _ _, _ | .list _, _ => rfl

theorem resolutionsAnd_of_orFree : ∀ nodes : List (Node α), orFreeList nodes = true →
    resolutionsAnd nodes = [nodes]
  | [], _ => rfl
  | node :: nodes, h => by
    rw [orFreeList, Bool.and_eq_true] at h
    rw [resolutionsAnd, resolutions_of_orFree node h.1, resolutionsAnd_of_orFree nodes h.2]
    rfl

end

/-- The first argument of an AND with an OR in it is resolved like its choices together. -/
theorem resolutionsAnd_choices {nodes : List (Node α)} (hsplit : ∀ a ∈ nodes, Splittable a)
    (hnodes : ∀ a ∈ nodes, choices a ≠ [] → (choices a).flatMap resolutions = resolutions a)
    (hne : choicesList nodes ≠ []) :
    (choicesList nodes).flatMap resolutionsAnd = resolutionsAnd nodes := by
  induction nodes with
  | nil => exact absurd rfl hne
  | cons a nodes ih =>
    rw [List.forall_mem_cons] at hsplit hnodes
    rw [choicesList] at hne ⊢
    split at hne
    · next hnil =>
      -- the arguments before that one have no OR, and stay as they are
      have hfree := hsplit.1.orFree_of_choices (List.isEmpty_iff.mp hnil)
      rw [if_pos hnil, resolutionsAnd, resolutions_of_orFree a hfree, List.flatMap_singleton,
        ← ih hsplit.2 hnodes.2 (by simpa using hne), List.flatMap_map, List.map_flatMap]
      simp only [resolutionsAnd, resolutions_of_orFree a hfree, List.flatMap_singleton]
    · next hcs =>
      rw [if_neg hcs, resolutionsAnd, ← hnodes.1 (by simpa using hcs), List.flatMap_map,
        List.flatMap_assoc]
      rfl

theorem Splittable.resolutions_choices {a : Node α} (h : Splittable a) (hne : choices a ≠ []) :
    (choices a).flatMap resolutions = resolutions a := by
  induction h with
  | orFree ha => exact absurd (choices_of_orFree _ ha) hne
  | and hargs ih =>
    rw [choices, ne_eq, List.map_eq_nil_iff] at hne
    rw [choices, resolutions, ← resolutionsAnd_choices hargs ih hne, List.flatMap_map,
      List.map_flatMap]
    rfl
  | or _ _ _ => rw [choices, resolutions, resolutionsOr_eq_flatMap]

/-! ### The whole loop -/

theorem duplicate_succ {backup : Node α} {fuel : Nat} {ctx : ContextSplit}
    {pile out : List (Node α)} (h : duplicate backup fuel ctx pile = some out) :
    duplicate backup (fuel + 1) ctx pile = some out := by
  induction fuel generalizing ctx pile with
  | zero => cases h
  | succ fuel ih =>
    rw [duplicate, Option.bind_eq_bind, Option.bind_eq_some_iff] at h ⊢
    obtain ⟨⟨newNode, ctx'⟩, hnew, hrest⟩ := h
    refine ⟨⟨newNode, ctx'⟩, hnew, ?_⟩
    by_cases hdup : ctx'.haveToDuplicate = true
    · simp only [hdup, if_true] at hrest ⊢
      exact ih hrest
    · simp only [hdup, Bool.false_eq_true, if_false] at hrest ⊢
      exact hrest

/-- More fuel does not change what the loop returns. -/
theorem duplicate_add {b : Node α} {fuel : Nat} {ctx : ContextSplit} {pile pile' : List (Node α)}
    (h : duplicate b fuel ctx pile = some pile') (n : Nat) :
    duplicate b (fuel + n) ctx pile = some pile' := by
  induction n with
  | zero => exact h
  | succ n ih => exact duplicate_succ ih

theorem duplicate_eq {b : Node α} (hb : Queued b) (hne : choices b ≠ []) {fuel : Nat}
    {pile pile' : List (Node α)} (h : duplicate b fuel makeContextSplit pile = some pile') :
    pile' = pile ++ choices b := by
  have hall : duplicate b (fuel + (choices b).length) makeContextSplit pile =
      some (pile ++ choices b) :=
    splits_queued.duplicate hb (List.length_pos_iff.mpr hne) (by omega)
  exact Option.some.inj ((duplicate_add h _).symm.trans hall)

/-- What the results and the queue stand for together is the same, up to order, after every turn. -/
theorem trueSplitLoop_perm {fuel : Nat} {pile result out : List (Node α)}
    (hpile : ∀ a ∈ pile, Queued a) (h : trueSplitLoop fuel pile result = some out) :
    out.Perm (result ++ pile.flatMap resolutions) := by
  induction fuel generalizing pile result with
  | zero => cases h
  | succ fuel ih =>
    cases pile with
    | nil =>
      cases h
      simp
    | cons b pile =>
      rw [List.forall_mem_cons] at hpile
      obtain ⟨hb, hpile⟩ := hpile
      rw [trueSplitLoop] at h
      split at h
      · next hsplit =>
        have hne : choices b ≠ [] := by
          intro hnil
          rw [splits_queued.stop b hb hnil] at hsplit
          cases hsplit
        obtain ⟨pile', hdup, hrest⟩ := Option.bind_eq_some_iff.mp h
        obtain rfl := duplicate_eq hb hne hdup
        have hclosed : ∀ a ∈ pile ++ choices b, Queued a :=
          List.forall_mem_append.mpr ⟨hpile, splits_queued.closed b hb⟩
        refine (ih hclosed hrest).trans (List.Perm.append_left result ?_)
        rw [List.flatMap_append, List.flatMap_cons, hb.splittable.resolutions_choices hne]
        exact List.perm_append_comm
      · next hsplit =>
        have hnil : choices b = [] := by
          by_contra hne
          exact hsplit (splits_queued.split b hb hne)
        have hfree := hb.splittable.orFree_of_choices hnil
        refine (ih hpile h).trans ?_
        rw [List.flatMap_cons, resolutions_of_orFree b hfree, List.append_assoc]

/-! ### The number of sub-selects -/

theorem waysAnd_pos {args : List (Node α)} (h : ∀ a ∈ args, 0 < ways a) : 0 < waysAnd args := by
  induction args with
  | nil => exact Nat.one_pos
  | cons a args ih =>
    rw [List.forall_mem_cons] at h
    exact Nat.mul_pos h.1 (ih h.2)

theorem Splittable.ways_pos {a : Node α} (h : Splittable a) : 0 < ways a := by
  induction h with
  | orFree ha =>
    rw [← length_resolutions, resolutions_of_orFree _ ha]
    exact Nat.one_pos
  | and _ ih =>
    rw [ways]
    exact waysAnd_pos ih
  | @or args hne _ ih =>
    obtain ⟨a, args, rfl⟩ := List.exists_cons_of_ne_nil hne
    have := ih a List.mem_cons_self
    rw [ways, waysOr]
    omega

/-- Every argument with a choice doubles the number at least. -/
theorem two_pow_le_waysAnd {args : List (Node α)} (h : ∀ a ∈ args, Splittable a) :
    2 ^ args.countP (2 ≤ ways ·) ≤ waysAnd args := by
  induction args with
  | nil => exact Nat.le_refl 1
  | cons a args ih =>
    rw [List.forall_mem_cons] at h
    have hargs := ih h.2
    rw [waysAnd]
    by_cases ha : 2 ≤ ways a
    · rw [List.countP_cons_of_pos (by simpa using ha), Nat.pow_succ, Nat.mul_comm]
      exact Nat.mul_le_mul ha hargs
    · rw [List.countP_cons_of_neg (by simpa using ha)]
      exact hargs.trans (Nat.le_mul_of_pos_left _ h.1.ways_pos)

/-- Of a NOT EXISTS whose WHERE is an AND, `optimize_split` makes one for each way to choose an
argument of every OR, joined by AND if there is more than one. -/
theorem optimizeSplit_resolutions {args : List (Node α)} (h : ∀ a ∈ args, Splittable a)
    (targetList rtable : List (Node α)) (fromlist : List Nat) :
    ∃ result enough, result.Perm (resolutions (.boolExpr .andExpr args)) ∧
      2 ^ args.countP (2 ≤ ways ·) ≤ result.length ∧ result.length = waysAnd args ∧
      ∀ fuel ≥ enough, trueSplit fuel (.boolExpr .andExpr args) = some result ∧
        (1 < result.length →
          optimizeSplit fuel (.query targetList rtable fromlist (.boolExpr .andExpr args)) =
            some (.boolExpr .andExpr
              (result.map fun t => notExists (.query targetList rtable fromlist t)))) ∧
        ∀ t, result = [t] →
          optimizeSplit fuel (.query targetList rtable fromlist (.boolExpr .andExpr args)) =
            some (notExists (.query targetList rtable fromlist t)) := by
  have hqueued : ∀ a ∈ [.boolExpr .andExpr args], Queued a :=
    List.forall_mem_singleton.mpr (.inr ⟨args, rfl, .and h⟩)
  obtain ⟨result, hresult⟩ := exists_splitsTo hqueued
  have hrun : ∀ fuel ≥ weightSum [.boolExpr .andExpr args] + 1,
      trueSplit fuel (.boolExpr .andExpr args) = some result :=
    fun fuel hfuel => hresult.returns fuel [] hfuel
  have hperm : result.Perm (resolutions (.boolExpr .andExpr args)) := by
    simpa using trueSplitLoop_perm hqueued (hrun _ le_rfl)
  have hlength : result.length = waysAnd args := by
    rw [hperm.length_eq, length_resolutions, ways]
  refine ⟨result, _, hperm, hlength ▸ two_pow_le_waysAnd h, hlength, fun fuel hfuel =>
    ⟨hrun fuel hfuel, fun hlen => ?_, fun t ht => ?_⟩⟩
  · simp [optimizeSplit, hrun fuel hfuel, hlen]
  · simp [optimizeSplit, hrun fuel hfuel, ht, listNth]

/-- `(r.a IS NULL OR r.b IS NULL) AND (r.c IS NULL OR r.d IS NULL) AND r.e IS NULL`. -/
def pairs : List (Node Int) :=
  let isNull attno := .nullTest .isNull (.var ⟨1, attno, 0⟩)
  [.boolExpr .orExpr [isNull 1, isNull 2], .boolExpr .orExpr [isNull 3, isNull 4], isNull 5]

theorem pairs_splittable : ∀ a ∈ pairs, Splittable a := by
  have hnull : ∀ i, Splittable (.nullTest .isNull (.var ⟨1, i, 0⟩) : Node Int) :=
    fun i => .orFree rfl
  simp only [pairs, List.forall_mem_cons]
  exact ⟨.or (by simp) (by simpa using ⟨hnull 1, hnull 2⟩),
    .or (by simp) (by simpa using ⟨hnull 3, hnull 4⟩), hnull 5, by simp⟩

/-- Of a NOT EXISTS with this WHERE it makes four. -/
theorem optimizeSplit_resolutions_pairs :
    ∃ result enough, result.Perm (resolutions (.boolExpr .andExpr pairs)) ∧
      4 ≤ result.length ∧ result.length = 4 ∧
      ∀ fuel ≥ enough, trueSplit fuel (.boolExpr .andExpr pairs) = some result ∧
        (1 < result.length →
          optimizeSplit fuel (.query [] [] [1] (.boolExpr .andExpr pairs)) =
            some (.boolExpr .andExpr (result.map fun t => notExists (.query [] [] [1] t)))) ∧
        ∀ t, result = [t] → optimizeSplit fuel (.query [] [] [1] (.boolExpr .andExpr pairs)) =
          some (notExists (.query [] [] [1] t)) :=
  optimizeSplit_resolutions pairs_splittable [] [] [1]

end Infed.Split
