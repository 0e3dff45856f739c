import Infed.Codd.Pass
import Infed.Traverse

/-! One comparison, whose arguments may hold arithmetic.  Where checks are asked for, the columns of
the arguments add theirs as the mutator comes to them, and the first `OpExpr` that it leaves with
checks pending takes them: the comparison itself, or arithmetic in an argument. -/

namespace Infed.Codd

variable {α : Type} {cat : Catalog} {os : Scopes}

/-! ### Arithmetic -/

/-- Columns and constants under operators that are not weakened. -/
inductive Arith (cat : Catalog) (os : Scopes) : Node α → Prop where
  | column {v} : v.InScope cat os → Arith cat os (.var v)
  | constant {c} : Arith cat os (.const c)
  | op {opno args} : opno ∉ weakened → (∀ a ∈ args, Arith cat os a) →
    Arith cat os (.opExpr opno args)

/-- A comparison or a null test of arithmetic. -/
inductive ArithAtom (cat : Catalog) (os : Scopes) : Node α → Prop where
  | comparison {opno args} : (∀ a ∈ args, Arith cat os a) → ArithAtom cat os (.opExpr opno args)
  | nullTest {test arg} : Arith cat os arg → ArithAtom cat os (.nullTest test arg)

theorem ArithAtom.of_atom {a : Node α} (h : Atom cat os a) : ArithAtom cat os a := by
  have hoperand : ∀ {a : Node α}, Operand cat os a → Arith cat os a := by
    rintro _ (hv | _)
    · exact .column hv
    · exact .constant
  cases h with
  | comparison hargs => exact .comparison fun a ha => hoperand (hargs a ha)
  | nullTest harg => exact .nullTest (hoperand harg)

mutual

/-- The columns in an argument. -/
def columnsIn : Node α → List Var
  | .var v => [v]
  | .opExpr _ args => columnsInList args
  | _ => []

def columnsInList : List (Node α) → List Var
  | [] => []
  | node :: nodes => columnsIn node ++ columnsInList nodes

end

/-- The column is not in the current not-null list. -/
def unknown (c : ContextModifier α) (v : Var) : Bool :=
  (getTrueVar c.currentTrueVar v).any fun rv => !isInListTrueVar c.listOfNotNullInCurrent rv

/-- The checks of those columns that are not known. -/
def checksOf (u : Var → Bool) (vars : List Var) : List (Node α) := (vars.filter u).map isNull

def isOpExpr : Node α → Bool
  | .opExpr _ _ => true
  | _ => false

/-- No arithmetic among the arguments is left with checks pending, where `u` says which columns are
not known, and `pending` whether there are checks before the first argument. -/
def settled (u : Var → Bool) : Bool → List (Node α) → Bool
  | _, [] => true
  | pending, a :: args =>
    !(isOpExpr a && (pending || (columnsIn a).any u)) &&
      settled u (pending || (columnsIn a).any u) args

/-- Checks are pending only where they are asked for. -/
def Asked (ready : Bool) (checks : List (Node α)) : Prop := ready = false → checks = []

theorem checksOf_append (u : Var → Bool) (vars vars' : List Var) :
    (checksOf u (vars ++ vars') : List (Node α)) = checksOf u vars ++ checksOf u vars' := by
  simp [checksOf]

/-- There are checks if there were some before or a column is not known. -/
theorem append_checksOf_isEmpty (checks : List (Node α)) (u : Var → Bool) (vars : List Var) :
    (checks ++ checksOf u vars).isEmpty = !(!checks.isEmpty || vars.any u) := by
  rw [Bool.eq_iff_iff]
  cases checks <;> simp [checksOf, List.isEmpty_iff, List.filter_eq_nil_iff]

theorem settled_of_known {u : Var → Bool} {args : List (Node α)}
    (h : (columnsInList args).any u = false) : settled u false args = true := by
  induction args with
  | nil => rfl
  | cons a args ih =>
    rw [columnsInList, List.any_append, Bool.or_eq_false_iff] at h
    rw [settled, h.1, Bool.or_false, Bool.and_false, ih h.2]
    rfl

/-! ### Leaving a comparison -/

section

variable {c c1 c2 : ContextModifier α} {opno : Oid} {args outs : List (Node α)}

theorem enterOpExpr_eq (opno : Oid) (c : ContextModifier α) :
    pass.enterOpExpr opno c =
      c.advance (c.ready || (!c.positive && weakened.contains opno)) c.constraintToAdd 0 0 := by
  have hchecks : pass.checks (α := α) c.positive opno =
      (!c.positive && weakened.contains opno) := rfl
  rw [Pass.enterOpExpr, hchecks]
  cases (!c.positive && weakened.contains opno) <;> simp [ContextModifier.advance]

/-- With no checks pending, the comparison is rebuilt. -/
theorem myMutator_opExpr_plain
    (hargs : pass.myMutatorList args (pass.enterOpExpr opno c) = some (outs, c1))
    (hchecks : c1.constraintToAdd = []) :
    pass.myMutator (.opExpr opno args) c = some (.opExpr opno outs, c1) := by
  rw [Pass.myMutatorList] at hargs
  have hstrict : pass.strictPart (α := α) opno = none := rfl
  simp [Pass.myMutator, mutate, Pass.myMutatorStep, hstrict, Pass.compare, hargs, hchecks]

/-- At negative polarity, the comparison takes the checks that are pending. -/
theorem myMutator_opExpr_takes
    (hargs : pass.myMutatorList args (pass.enterOpExpr opno c) = some (outs, c1))
    (hchecks : c1.constraintToAdd ≠ []) (hneg : c1.positive = false) :
    pass.myMutator (.opExpr opno args) c =
      some (.boolExpr .orExpr (c1.constraintToAdd ++ [.opExpr opno outs]),
        c1.advance false [] 0 0) := by
  rw [Pass.myMutatorList] at hargs
  have hstrict : pass.strictPart (α := α) opno = none := rfl
  have hor : pass.connective (α := α) false = some .orExpr := rfl
  obtain ⟨k, ks, hks⟩ := List.exists_cons_of_ne_nil hchecks
  simp [Pass.myMutator, mutate, Pass.myMutatorStep, hstrict, Pass.compare, hargs, hks, hneg, hor,
    ContextModifier.advance]

/-- At positive polarity, the arguments are traversed again, with the checks still pending. -/
theorem myMutator_opExpr_again {outs' : List (Node α)}
    (hargs : pass.myMutatorList args (pass.enterOpExpr opno c) = some (outs, c1))
    (hchecks : c1.constraintToAdd ≠ []) (hpos : c1.positive = true)
    (hagain : pass.myMutatorList args c1 = some (outs', c2)) :
    pass.myMutator (.opExpr opno args) c = some (.opExpr opno outs', c2) := by
  rw [Pass.myMutatorList] at hargs hagain
  have hstrict : pass.strictPart (α := α) opno = none := rfl
  have hnone : pass.connective (α := α) true = none := rfl
  obtain ⟨k, ks, hks⟩ := List.exists_cons_of_ne_nil hchecks
  simp [Pass.myMutator, mutate, Pass.myMutatorStep, hstrict, Pass.compare, hargs, hks, hpos, hnone,
    hagain]

end

/-! ### Where no checks are asked for -/

section

variable {c : ContextModifier α} {opno : Oid} {args : List (Node α)}

theorem myMutator_opExpr_copied (opno : Oid)
    (hargs : ∀ a ∈ args, pass.myMutator a c = some (a, c)) (hchecks : c.constraintToAdd = [])
    (hop : c.positive = true ∨ opno ∉ weakened) :
    pass.myMutator (.opExpr opno args) c = some (.opExpr opno args, c) := by
  have hent : pass.enterOpExpr opno c = c := by
    have hnot : (!c.positive && weakened.contains opno) = false := by
      rcases hop with hpos | hop
      · rw [hpos, Bool.not_true, Bool.false_and]
      · simp [hop]
    rw [enterOpExpr_eq, hnot, Bool.or_false]
    rfl
  exact myMutator_opExpr_plain (by rw [hent]; exact mutateList_fixed hargs) hchecks

theorem Arith.copied {a : Node α} (ha : Arith cat os a) (hready : c.ready = false)
    (hchecks : c.constraintToAdd = []) : pass.myMutator a c = some (a, c) := by
  induction ha with
  | constant => rfl
  | column _ => simp [Pass.myMutator, mutate, Pass.myMutatorStep, Pass.enterVar, hready]
  | op hop _ ih => exact myMutator_opExpr_copied _ ih hchecks (.inr hop)

end

/-! ### Positive polarity -/

section

variable {c : ContextModifier α} {opno : Oid} {args : List (Node α)}

/-- Arithmetic or a comparison that is copied at positive polarity, whatever the checks pending. -/
def CopiedAtPositive (cat : Catalog) (os : Scopes) (a : Node α) : Prop :=
  ∀ c : ContextModifier α, c.currentTrueVar.Resolves cat os → c.positive = true →
    ∃ checks, pass.myMutator a c = some (a, c.advance c.ready checks 0 0)

theorem myMutatorList_positive (hargs : ∀ a ∈ args, CopiedAtPositive cat os a)
    (hs : c.currentTrueVar.Resolves cat os) (hpos : c.positive = true) :
    ∃ checks, pass.myMutatorList args c = some (args, c.advance c.ready checks 0 0) := by
  induction args generalizing c with
  | nil => exact ⟨c.constraintToAdd, rfl⟩
  | cons a args ih =>
    obtain ⟨ks1, hrun1⟩ := hargs a List.mem_cons_self c hs hpos
    obtain ⟨ks2, hrun2⟩ := ih (c := c.advance c.ready ks1 0 0)
      (fun b hb => hargs b (List.mem_cons_of_mem _ hb)) hs hpos
    exact ⟨ks2, mutateList_cons hrun1 hrun2⟩

theorem opExpr_copiedAtPositive (opno : Oid) (hargs : ∀ a ∈ args, CopiedAtPositive cat os a) :
    CopiedAtPositive cat os (.opExpr opno args) := by
  intro c hs hpos
  have hent : pass.enterOpExpr opno c = c := by
    rw [enterOpExpr_eq, hpos, Bool.not_true, Bool.false_and, Bool.or_false]
    rfl
  obtain ⟨ks, hrun⟩ := myMutatorList_positive hargs hs hpos
  have hrun' : pass.myMutatorList args (pass.enterOpExpr opno c) =
      some (args, c.advance c.ready ks 0 0) := by rw [hent, hrun]
  by_cases hks : ks = []
  · exact ⟨ks, myMutator_opExpr_plain hrun' hks⟩
  · obtain ⟨ks', hagain⟩ := myMutatorList_positive hargs (c := c.advance c.ready ks 0 0) hs hpos
    exact ⟨ks', myMutator_opExpr_again hrun' hks hpos hagain⟩

theorem Arith.copiedAtPositive {a : Node α} (ha : Arith cat os a) : CopiedAtPositive cat os a := by
  induction ha with
  | constant => exact fun c _ _ => ⟨c.constraintToAdd, rfl⟩
  | column hv => exact fun c hs _ => ⟨_, pass.myMutator_operand (.column hv) hs⟩
  | op _ _ ih => exact opExpr_copiedAtPositive _ ih

end

/-! ### Where checks are asked for -/

section

variable {c : ContextModifier α} {opno : Oid} {args : List (Node α)}

/-- An argument where checks are asked for: either it is copied, and its own checks are added to
those pending, or it has taken the checks. -/
def Gathers (cat : Catalog) (os : Scopes) (a : Node α) : Prop :=
  ∀ c : ContextModifier α, c.currentTrueVar.Resolves cat os → c.positive = false →
    c.ready = true →
    if isOpExpr a && (!c.constraintToAdd.isEmpty || (columnsIn a).any (unknown c)) then
      ∃ out, out ≠ a ∧ pass.myMutator a c = some (out, c.advance false [] 0 0)
    else
      pass.myMutator a c = some (a, c.advance true
        (c.constraintToAdd ++ checksOf (unknown c) (columnsIn a)) 0 0)

theorem myMutatorList_gathers (hargs : ∀ a ∈ args, Gathers cat os a)
    (harith : ∀ a ∈ args, Arith cat os a) (hs : c.currentTrueVar.Resolves cat os)
    (hneg : c.positive = false) (hready : c.ready = true) :
    if settled (unknown c) (!c.constraintToAdd.isEmpty) args then
      pass.myMutatorList args c = some (args, c.advance true
        (c.constraintToAdd ++ checksOf (unknown c) (columnsInList args)) 0 0)
    else ∃ outs, outs ≠ args ∧
      pass.myMutatorList args c = some (outs, c.advance false [] 0 0) := by
  induction args generalizing c with
  | nil =>
    have hsame : c.advance true (c.constraintToAdd ++ []) 0 0 = c := by
      rw [List.append_nil, ← hready]
      rfl
    exact congrArg (fun c' => some ([], c')) hsame.symm
  | cons a args ih =>
    have hhead := hargs a List.mem_cons_self c hs hneg hready
    rw [settled]
    by_cases htakes : (isOpExpr a &&
        (!c.constraintToAdd.isEmpty || (columnsIn a).any (unknown c))) = true
    · -- the first argument takes the checks, and nothing is asked for after it
      rw [if_pos htakes] at hhead
      obtain ⟨out, hne, hrun⟩ := hhead
      rw [htakes, Bool.not_true, Bool.false_and, if_neg Bool.false_ne_true]
      have hrest : pass.myMutatorList args (c.advance false [] 0 0) =
          some (args, c.advance false [] 0 0) :=
        mutateList_fixed fun b hb => (harith b (List.mem_cons_of_mem _ hb)).copied rfl rfl
      exact ⟨out :: args, fun h => hne (List.cons.inj h).1, mutateList_cons hrun hrest⟩
    · rw [if_neg htakes] at hhead
      rw [Bool.not_eq_true] at htakes
      rw [htakes, Bool.not_false, Bool.true_and]
      have hpending : (!(c.constraintToAdd ++
          (checksOf (unknown c) (columnsIn a) : List (Node α))).isEmpty) =
          (!c.constraintToAdd.isEmpty || (columnsIn a).any (unknown c)) := by
        rw [append_checksOf_isEmpty, Bool.not_not]
      have htail := ih (c := c.advance true
          (c.constraintToAdd ++ checksOf (unknown c) (columnsIn a)) 0 0)
        (fun b hb => hargs b (List.mem_cons_of_mem _ hb))
        (fun b hb => harith b (List.mem_cons_of_mem _ hb)) hs hneg rfl
      have hsame : settled (unknown (c.advance true
            (c.constraintToAdd ++ checksOf (unknown c) (columnsIn a)) 0 0))
          (!(c.constraintToAdd ++ checksOf (unknown c) (columnsIn a)).isEmpty) args =
          settled (unknown c) (!c.constraintToAdd.isEmpty || (columnsIn a).any (unknown c))
            args := by
        rw [hpending]
        rfl
      have hset := hsame ▸ htail
      split at hset
      · next hsettled =>
        rw [if_pos hsettled, Pass.myMutatorList, mutateList_cons hhead hset, columnsInList,
          checksOf_append, ← List.append_assoc]
        rfl
      · next hsettled =>
        obtain ⟨outs, hne, hrun⟩ := hset
        rw [if_neg hsettled]
        exact ⟨a :: outs, fun h => hne (List.cons.inj h).2, mutateList_cons hhead hrun⟩

/-- An `OpExpr` at negative polarity for which checks are asked: it is copied if there are none, it
takes them if they have all come to it, and otherwise arithmetic among its arguments has taken
them. -/
theorem myMutator_opExpr_gathers (opno : Oid) (hargs : ∀ a ∈ args, Gathers cat os a)
    (harith : ∀ a ∈ args, Arith cat os a) (hs : c.currentTrueVar.Resolves cat os)
    (hneg : c.positive = false) (hasks : (c.ready || weakened.contains opno) = true) :
    if settled (unknown c) (!c.constraintToAdd.isEmpty) args then
      pass.myMutator (.opExpr opno args) c = some (
        if (c.constraintToAdd ++
            (checksOf (unknown c) (columnsInList args) : List (Node α))).isEmpty then
          (.opExpr opno args, c.advance true [] 0 0)
        else
          (.boolExpr .orExpr (c.constraintToAdd ++ checksOf (unknown c) (columnsInList args) ++
              [.opExpr opno args]), c.advance false [] 0 0))
    else ∃ outs, outs ≠ args ∧
      pass.myMutator (.opExpr opno args) c =
        some (.opExpr opno outs, c.advance false [] 0 0) := by
  have hent : pass.enterOpExpr opno c = c.advance true c.constraintToAdd 0 0 := by
    rw [enterOpExpr_eq, hneg, Bool.not_false, Bool.true_and, hasks]
  have hlist : if settled (unknown c) (!c.constraintToAdd.isEmpty) args then
        pass.myMutatorList args (pass.enterOpExpr opno c) = some (args, c.advance true
          (c.constraintToAdd ++ checksOf (unknown c) (columnsInList args)) 0 0)
      else ∃ outs, outs ≠ args ∧ pass.myMutatorList args (pass.enterOpExpr opno c) =
        some (outs, c.advance false [] 0 0) := by
    rw [hent]
    exact myMutatorList_gathers (c := c.advance true c.constraintToAdd 0 0) hargs harith hs hneg rfl
  split at hlist
  · next hsettled =>
    rw [if_pos hsettled]
    split
    · next hempty =>
      rw [List.isEmpty_iff] at hempty
      rw [hempty] at hlist
      exact myMutator_opExpr_plain hlist rfl
    · next hne =>
      rw [List.isEmpty_iff] at hne
      exact myMutator_opExpr_takes hlist hne hneg
  · next hsettled =>
    rw [if_neg hsettled]
    obtain ⟨outs, hne, hrun⟩ := hlist
    exact ⟨outs, hne, myMutator_opExpr_plain hrun rfl⟩

theorem Arith.gathers {a : Node α} (ha : Arith cat os a) : Gathers cat os a := by
  induction ha with
  | constant =>
    intro c _ _ hready
    have hsame : c.advance true (c.constraintToAdd ++ []) 0 0 = c := by
      rw [List.append_nil, ← hready]
      rfl
    exact congrArg (fun c' => some (_, c')) hsame.symm
  | @column v hv =>
    intro c hs _ hready
    have hrun := pass.myMutator_operand (.column hv) hs
    obtain ⟨t, ht, _⟩ := getTrueVar_of_inScope hs hv
    have hchecks : pass.operandChecks c (.var v) = checksOf (unknown c) [v] := by
      cases hknown : isInListTrueVar c.listOfNotNullInCurrent t <;>
        simp [Pass.operandChecks, checksOf, unknown, ht, hknown, pass]
    rw [hready, if_pos rfl, hchecks] at hrun
    exact hrun
  | @op opno args _ harith ih =>
    intro c hs hneg hready
    have hrun := myMutator_opExpr_gathers opno ih harith hs hneg (by rw [hready]; rfl)
    simp only [isOpExpr, Bool.true_and, columnsIn]
    rw [append_checksOf_isEmpty] at hrun
    split
    · next htakes =>
      rw [htakes, Bool.not_true, if_neg Bool.false_ne_true] at hrun
      split at hrun
      · exact ⟨_, by simp, hrun⟩
      · obtain ⟨outs, hne, hrun⟩ := hrun
        exact ⟨.opExpr opno outs, by simpa using hne, hrun⟩
    · next hnone =>
      rw [Bool.not_eq_true] at hnone
      rw [hnone, Bool.not_false, if_pos rfl] at hrun
      obtain ⟨hpending, hknown⟩ := Bool.or_eq_false_iff.mp hnone
      have hempty : c.constraintToAdd ++
          (checksOf (unknown c) (columnsInList args) : List (Node α)) = [] := by
        rw [← List.isEmpty_iff, append_checksOf_isEmpty, hnone, Bool.not_false]
      rw [hpending, settled_of_known hknown, if_pos rfl] at hrun
      rw [hempty]
      exact hrun

end

/-! ### What every comparison keeps -/

section

variable {c : ContextModifier α} {opno : Oid} {args : List (Node α)}

theorem opExpr_asked (opno : Oid) (hargs : ∀ a ∈ args, Arith cat os a)
    (hs : c.currentTrueVar.Resolves cat os) (hasked : Asked c.ready c.constraintToAdd) :
    ∃ out ready checks, pass.myMutator (.opExpr opno args) c =
        some (out, c.advance ready checks 0 0) ∧ Asked ready checks := by
  cases hp : c.positive with
  | true =>
    cases hready : c.ready with
    | true =>
      obtain ⟨ks, hrun⟩ :=
        opExpr_copiedAtPositive opno (fun a ha => (hargs a ha).copiedAtPositive) c hs hp
      exact ⟨_, c.ready, ks, hrun, fun h => by simp [hready] at h⟩
    | false =>
      have hrun := myMutator_opExpr_copied opno
        (fun a ha => (hargs a ha).copied hready (hasked hready)) (hasked hready) (.inl hp)
      exact ⟨_, c.ready, c.constraintToAdd, hrun, hasked⟩
  | false =>
    cases hasks : c.ready || weakened.contains opno with
    | true =>
      have hrun := myMutator_opExpr_gathers opno (fun a ha => (hargs a ha).gathers) hargs hs hp
        hasks
      split at hrun
      · split at hrun
        · exact ⟨_, _, _, hrun, fun _ => rfl⟩
        · exact ⟨_, _, _, hrun, fun _ => rfl⟩
      · obtain ⟨outs, _, hrun⟩ := hrun
        exact ⟨_, _, _, hrun, fun _ => rfl⟩
    | false =>
      obtain ⟨hready, hop⟩ := Bool.or_eq_false_iff.mp hasks
      have hrun := myMutator_opExpr_copied opno
        (fun a ha => (hargs a ha).copied hready (hasked hready)) (hasked hready)
        (.inr (by simpa using hop))
      exact ⟨_, c.ready, c.constraintToAdd, hrun, hasked⟩

theorem Arith.asked {a : Node α} (ha : Arith cat os a) (hs : c.currentTrueVar.Resolves cat os)
    (hasked : Asked c.ready c.constraintToAdd) :
    ∃ out ready checks, pass.myMutator a c = some (out, c.advance ready checks 0 0) ∧
      Asked ready checks := by
  cases ha with
  | constant => exact ⟨_, c.ready, c.constraintToAdd, rfl, hasked⟩
  | column hv =>
    refine ⟨_, _, _, pass.myMutator_operand (.column hv) hs, fun hready => ?_⟩
    rw [hasked hready, hready]
    rfl
  | op _ hargs => exact opExpr_asked _ hargs hs hasked

theorem myMutator_nullTest {test : NullTestType} {arg out : Node α} {c' : ContextModifier α}
    (hrun : pass.myMutator arg c = some (out, c')) :
    pass.myMutator (.nullTest test arg) c = some (.nullTest test out, c') := by
  rw [Pass.myMutator] at hrun
  simp [Pass.myMutator, mutate, Pass.myMutatorStep, hrun]

theorem ArithAtom.asked {a : Node α} (ha : ArithAtom cat os a)
    (hs : c.currentTrueVar.Resolves cat os) (hasked : Asked c.ready c.constraintToAdd) :
    ∃ out ready checks, pass.myMutator a c = some (out, c.advance ready checks 0 0) ∧
      Asked ready checks := by
  cases ha with
  | comparison hargs => exact opExpr_asked _ hargs hs hasked
  | nullTest harg =>
    obtain ⟨out, r, ks, hrun, hasked'⟩ := harg.asked hs hasked
    exact ⟨_, r, ks, myMutator_nullTest hrun, hasked'⟩

theorem ArithAtom.isAtom {a : Node α} (ha : ArithAtom cat os a) : a.isAtom = true := by
  cases ha <;> rfl

/-- The mutator returns on every query, and no checks are pending at a comparison unless they are
asked for. -/
theorem fresh_returns {targetList : List (Node α)} {relids : List Oid} {quals : Node α}
    (hc : Fresh cat (selectFrom targetList relids quals) c)
    (h : Cond (ArithAtom cat) True [relids] quals) :
    (∃ q' c', pass.myMutator (selectFrom targetList relids quals) c = some (q', c')) ∧
      pass.Reaches Asked (ArithAtom cat) cat [] (selectFrom targetList relids quals) c :=
  hc.traverses h (fun _ _ ha => ha.isAtom) (fun _ => rfl) fun _ _ _ _ _ _ hcomes =>
    hcomes.atom.asked hcomes.resolves hcomes.flags

end

end Infed.Codd
