import Infed.CertainAnswer

/-! What every step of `my_walker` keeps, a whole run keeps. -/

namespace Infed

open CellList

variable {α : Type} {cat : Catalog}

/-- What the steps of the walker keep. -/
structure Pass.WalkerKeeps (P : Pass α) (cat : Catalog)
    (Inv : ContextWalkerSetConstraint → Prop) : Prop where
  openBoolExpr : ∀ c, Inv c → Inv c.openBoolExpr
  closeNot : ∀ c c' l m, Inv c → c.closeNot l m = some c' → Inv c'
  closeBoolExpr : ∀ c c' isAnd n l m, Inv c → c.closeBoolExpr isAnd n l m = some c' → Inv c'
  addVar : ∀ c c' v, Inv c → c.addVar v = some c' → Inv c'
  openOpExpr : ∀ c opno, Inv c → Inv (P.openOpExpr opno c)
  closeOpExpr : ∀ c c', Inv c → c.closeOpExpr = some c' → Inv c'
  scope : ∀ c currentTrueVar, Inv c → Inv { c with currentTrueVar }
  query : ∀ c, Inv c → Inv { c with trueVars := c.trueVars ++ [c.currentTrueVar] }
  addRelation : ∀ c relid, Inv c → Inv (c.addRelation cat relid)

namespace Pass.WalkerKeeps

variable {P : Pass α} {Inv : ContextWalkerSetConstraint → Prop}

mutual

theorem myWalker (k : P.WalkerKeeps cat Inv) : ∀ (node : Node α)
    (c c' : ContextWalkerSetConstraint), Inv c → P.myWalker cat node c = some c' → Inv c'
  | .boolExpr boolop args, c, c', hc, h => by
    rw [Pass.myWalker] at h
    split at h
    · cases h
    · obtain ⟨c1, hargs, hclose⟩ := Option.bind_eq_some_iff.mp h
      have h1 := k.myWalkerList args _ c1 (k.openBoolExpr c hc) hargs
      cases boolop with
      | notExpr => exact k.closeNot _ _ _ _ h1 hclose
      | andExpr => exact k.closeBoolExpr _ _ _ _ _ _ h1 hclose
      | orExpr => exact k.closeBoolExpr _ _ _ _ _ _ h1 hclose
  | .var v, c, c', hc, h => by
    rw [Pass.myWalker] at h
    split at h
    · exact k.addVar c c' v hc h
    · cases h
      exact hc
  | .opExpr opno args, c, c', hc, h => by
    rw [Pass.myWalker] at h
    obtain ⟨c1, hargs, hclose⟩ := Option.bind_eq_some_iff.mp h
    have h1 := k.myWalkerList args _ c1 (k.openOpExpr c opno hc) hargs
    split at hclose
    · exact k.closeOpExpr _ _ h1 hclose
    · cases hclose
      exact h1
  | .query _ rtable _ quals, c, c', hc, h => by
    rw [Pass.myWalker] at h
    obtain ⟨c1, hrtable, h⟩ := Option.bind_eq_some_iff.mp h
    obtain ⟨c2, hquals, h⟩ := Option.bind_eq_some_iff.mp h
    cases h
    have h1 := k.myWalkerList rtable _ c1 (k.scope c _ hc) hrtable
    exact k.scope c2 _ (k.myWalker quals _ c2 (k.query c1 h1) hquals)
  | .rangeTblEntry .rteSubquery relid (.query _ rtable _ _), c, c', hc, h => by
    rw [Pass.myWalker] at h
    split at h
    · exact k.myWalkerList rtable c c' hc h
    · cases h
      exact k.addRelation c relid hc
  | .rangeTblEntry .rteRelation relid _, c, c', hc, h
  | .rangeTblEntry .rteSubquery relid .null, c, c', hc, h
  | .rangeTblEntry .rteSubquery relid (.var _), c, c', hc, h
  | .rangeTblEntry .rteSubquery relid (.const _), c, c', hc, h
  | .rangeTblEntry .rteSubquery relid (.param _), c, c', hc, h
  | .rangeTblEntry .rteSubquery relid (.opExpr _ _), c, c', hc, h
  | .rangeTblEntry .rteSubquery relid (.boolExpr _ _), c, c', hc, h
  | .rangeTblEntry .rteSubquery relid (.nullTest _ _), c, c', hc, h
  | .rangeTblEntry .rteSubquery relid (.subLink _ _ _), c, c', hc, h
  | .rangeTblEntry .rteSubquery relid (.rangeTblEntry _ _ _), c, c', hc, h
  | .rangeTblEntry .rteSubquery relid (.targetEntry _ _), c, c', hc, h
  | .rangeTblEntry .rteSubquery relid (.list _), c, c', hc, h => by
    cases h
    exact k.addRelation c relid hc
  | .nullTest _ arg, c, c', hc, h => k.myWalker arg c c' hc h
  | .subLink _ testexpr subselect, c, c', hc, h => by
    rw [Pass.myWalker] at h
    obtain ⟨c1, htest, hsub⟩ := Option.bind_eq_some_iff.mp h
    exact k.myWalker subselect c1 c' (k.myWalker testexpr c c1 hc htest) hsub
  | .targetEntry expr _, c, c', hc, h => k.myWalker expr c c' hc h
  | .list elems, c, c', hc, h => k.myWalkerList elems c c' hc h
  | .null, c, c', hc, h | .const _, c, c', hc, h | .param _, c, c', hc, h => by
    cases h
    exact hc

theorem myWalkerList (k : P.WalkerKeeps cat Inv) : ∀ (nodes : List (Node α))
    (c c' : ContextWalkerSetConstraint), Inv c → P.myWalkerList cat nodes c = some c' → Inv c'
  | [], c, c', hc, h => by
    cases h
    exact hc
  | node :: nodes, c, c', hc, h => by
    rw [Pass.myWalkerList] at h
    obtain ⟨c1, hnode, hnodes⟩ := Option.bind_eq_some_iff.mp h
    exact k.myWalkerList nodes c1 c' (k.myWalker node c c1 hc hnode) hnodes

end

end Pass.WalkerKeeps

end Infed
