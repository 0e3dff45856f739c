import Infed.Split.Stops

/-! ORs below NOTs.  `split_rel` takes one argument of the first OR, whatever stands above it.  For
an OR below an even number of NOTs one true argument is what is asked for; below an odd number all
arguments have to be false, and a condition that asks for one of them only is true too often. -/

namespace Infed.Split

variable {α : Type}

/-! ### Rows on which the split conditions mislead -/

section

variable (I : Interp α) (D : Database α) (ρ : Env α)

/-- No argument has the truth value. -/
def noneIs (t : Kleene) (args : List (Node α)) : Bool :=
  args.all fun a => evalCond I D a ρ ≠ t

mutual

/-- With one argument for each OR the condition can be made true (`true`) or false (`false`) on the
row, though it is not.  It starts at an OR to be made false, of which an argument is false and
another one is not. -/
def misled : Bool → Node α → Bool
  | false, .boolExpr .orExpr args =>
    (!noneIs I D ρ .false args || someMisled false args) &&
      args.any fun a => evalCond I D a ρ ≠ .false
  | true, .boolExpr .orExpr args => noneIs I D ρ .true args && someMisled true args
  | true, .boolExpr .andExpr args | false, .boolExpr .notExpr args =>
    eachReached args && someMisled true args
  | false, .boolExpr .andExpr args | true, .boolExpr .notExpr args =>
    noneIs I D ρ .false args && someMisled false args
  | _, _ => false

def someMisled (p : Bool) : List (Node α) → Bool
  | [] => false
  | node :: nodes => misled p node || someMisled p nodes

/-- Every argument is true or can be made true. -/
def eachReached : List (Node α) → Bool
  | [] => true
  | node :: nodes => (evalCond I D node ρ = .true || misled true node) && eachReached nodes

end

def wanted (p : Bool) : Kleene := if p then .true else .false

/-- The condition has the truth value, or can be given it by one argument for each OR. -/
def Reaches (p : Bool) (a : Node α) : Prop :=
  evalCond I D a ρ = wanted p ∨ misled I D ρ p a = true

end

section

variable {I : Interp α} {D : Database α} {ρ : Env α} {args : List (Node α)} {p : Bool}

theorem someMisled_iff : someMisled I D ρ p args = true ↔ ∃ a ∈ args, misled I D ρ p a = true := by
  induction args with
  | nil => simp [someMisled]
  | cons a args ih => simp [someMisled, ih]

theorem eachReached_iff : eachReached I D ρ args = true ↔ ∀ a ∈ args, Reaches I D ρ true a := by
  induction args with
  | nil => simp [eachReached]
  | cons a args ih => simp [eachReached, ih, Reaches, wanted]

theorem noneIs_iff {t : Kleene} :
    noneIs I D ρ t args = true ↔ ∀ a ∈ args, evalCond I D a ρ ≠ t := by
  simp [noneIs]

theorem reaches_and_true :
    Reaches I D ρ true (.boolExpr .andExpr args) ↔ ∀ a ∈ args, Reaches I D ρ true a := by
  rw [Reaches, misled, Bool.and_eq_true, eachReached_iff, someMisled_iff]
  show evalCond I D _ ρ = .true ∨ _ ↔ _
  rw [evalCond_and_eq_true]
  constructor
  · rintro (htrue | ⟨hreach, -⟩)
    · exact fun a ha => .inl (htrue a ha)
    · exact hreach
  · intro hreach
    by_cases hmisled : ∃ a ∈ args, misled I D ρ true a = true
    · exact .inr ⟨hreach, hmisled⟩
    · push Not at hmisled
      exact .inl fun a ha => (hreach a ha).resolve_right (hmisled a ha)

theorem exists_reaches_iff :
    ((∃ a ∈ args, evalCond I D a ρ = wanted p) ∨
      (∀ a ∈ args, evalCond I D a ρ ≠ wanted p) ∧ ∃ a ∈ args, misled I D ρ p a = true) ↔
      ∃ a ∈ args, Reaches I D ρ p a := by
  constructor
  · rintro (⟨a, ha, hvalue⟩ | ⟨-, a, ha, hmisled⟩)
    · exact ⟨a, ha, .inl hvalue⟩
    · exact ⟨a, ha, .inr hmisled⟩
  · rintro ⟨a, ha, hreach⟩
    by_cases hvalue : ∃ b ∈ args, evalCond I D b ρ = wanted p
    · exact .inl hvalue
    · push Not at hvalue
      exact .inr ⟨hvalue, a, ha, hreach.resolve_left (hvalue a ha)⟩

theorem reaches_or_true :
    Reaches I D ρ true (.boolExpr .orExpr args) ↔ ∃ a ∈ args, Reaches I D ρ true a := by
  rw [← exists_reaches_iff, Reaches, misled, Bool.and_eq_true, noneIs_iff, someMisled_iff]
  show evalCond I D _ ρ = .true ∨ _ ↔ _
  rw [evalCond_or_eq_true]
  rfl

theorem reaches_and_false :
    Reaches I D ρ false (.boolExpr .andExpr args) ↔ ∃ a ∈ args, Reaches I D ρ false a := by
  rw [← exists_reaches_iff, Reaches, misled, Bool.and_eq_true, noneIs_iff, someMisled_iff]
  show evalCond I D _ ρ = .false ∨ _ ↔ _
  rw [evalCond_and_eq_false]
  rfl

/-- All arguments have to be false for the OR to be, and one of them is enough to be misled. -/
theorem reaches_or_false (hne : args ≠ []) :
    Reaches I D ρ false (.boolExpr .orExpr args) ↔ ∃ a ∈ args, Reaches I D ρ false a := by
  have hany : (args.any fun a => evalCond I D a ρ ≠ .false) = true ↔
      ¬∀ a ∈ args, evalCond I D a ρ = .false := by
    simp
  have hsome : (!noneIs I D ρ .false args || someMisled I D ρ false args) = true ↔
      ∃ a ∈ args, Reaches I D ρ false a := by
    rw [Bool.or_eq_true, someMisled_iff, Bool.not_eq_true', ← Bool.not_eq_true, noneIs_iff]
    simp only [Reaches, wanted, and_or_left, exists_or]
    simp
  rw [Reaches, misled, Bool.and_eq_true, hany, hsome]
  show evalCond I D _ ρ = .false ∨ _ ↔ _
  rw [evalCond_or_eq_false]
  constructor
  · rintro (hfalse | ⟨hreach, -⟩)
    · obtain ⟨a, ha⟩ := List.exists_mem_of_ne_nil args hne
      exact ⟨a, ha, .inl (hfalse a ha)⟩
    · exact hreach
  · intro hreach
    by_cases hfalse : ∀ a ∈ args, evalCond I D a ρ = .false
    · exact .inl hfalse
    · exact .inr ⟨hreach, hfalse⟩

theorem reaches_not :
    Reaches I D ρ p (.boolExpr .notExpr args) ↔ Reaches I D ρ (!p) (.boolExpr .andExpr args) := by
  cases p with
  | false => simp [Reaches, wanted, misled, evalCond]
  | true => simp [Reaches, wanted, misled, evalCond]

end

/-- A misled condition does not have the truth value that it can be given. -/
theorem Tree.ne_of_misled {I : Interp α} {D : Database α} {ρ : Env α} {a : Node α} (h : Tree a)
    {p : Bool} (hmisled : misled I D ρ p a = true) : evalCond I D a ρ ≠ wanted p := by
  -- where all arguments have to be true, one of them is misled
  have hall : ∀ {args : List (Node α)},
      (∀ a ∈ args, misled I D ρ true a = true → evalCond I D a ρ ≠ wanted true) →
      (eachReached I D ρ args && someMisled I D ρ true args) = true →
      evalCond I D (.boolExpr .andExpr args) ρ ≠ .true := by
    intro args ih hargs htrue
    rw [Bool.and_eq_true, someMisled_iff] at hargs
    obtain ⟨-, a, ha, hmisled⟩ := hargs
    exact ih a ha hmisled (evalCond_and_eq_true.mp htrue a ha)
  have hnone : ∀ {args : List (Node α)},
      (noneIs I D ρ .false args && someMisled I D ρ false args) = true →
      evalCond I D (.boolExpr .andExpr args) ρ ≠ .false := by
    intro args hargs hfalse
    rw [Bool.and_eq_true, noneIs_iff] at hargs
    obtain ⟨a, ha, hvalue⟩ := evalCond_and_eq_false.mp hfalse
    exact hargs.1 a ha hvalue
  induction h generalizing p with
  | null | comparison _ | nullTest _ | subLink _ _ => cases p <;> cases hmisled
  | and _ ih =>
    cases p with
    | true => exact hall (fun a ha => ih a ha) hmisled
    | false => exact hnone hmisled
  | not _ ih =>
    cases p with
    | true =>
      have hne := hnone hmisled
      simpa [evalCond, wanted] using hne
    | false =>
      have hne := hall (fun a ha => ih a ha) hmisled
      simpa [evalCond, wanted] using hne
  | or _ _ _ =>
    intro hvalue
    cases p with
    | true =>
      rw [misled, Bool.and_eq_true, noneIs_iff] at hmisled
      obtain ⟨a, ha, htrue⟩ := evalCond_or_eq_true.mp hvalue
      exact hmisled.1 a ha htrue
    | false =>
      rw [misled, Bool.and_eq_true, List.any_eq_true] at hmisled
      obtain ⟨-, a, ha, hne⟩ := hmisled
      exact of_decide_eq_true hne (evalCond_or_eq_false.mp hvalue a ha)

/-! ### One argument for the first OR -/

mutual

/-- The condition with its first OR, below NOTs or not, replaced by each of the OR's arguments. -/
def picks : Node α → List (Node α)
  | .boolExpr .orExpr args => args
  | .boolExpr boolop args => (picksList args).map (.boolExpr boolop)
  | _ => []

def picksList : List (Node α) → List (List (Node α))
  | [] => []
  | node :: nodes =>
    if (picks node).isEmpty then (picksList nodes).map (node :: ·)
    else (picks node).map (· :: nodes)

end

theorem picksList_eq (nodes : List (Node α)) : picksList nodes = chooseFirst picks nodes := by
  induction nodes with
  | nil => rfl
  | cons a nodes ih => rw [picksList, chooseFirst, ih]

mutual

theorem choices_notAsAnd : ∀ a : Node α, choices (notAsAnd a) = (picks a).map notAsAnd
  | .boolExpr .orExpr args => by rw [notAsAnd, choices, picks, notAsAndList_eq_map]
  | .boolExpr .andExpr args | .boolExpr .notExpr args => by
    simp only [notAsAnd, choices, picks, choicesList_notAsAnd args, List.map_map]
    rfl
  | .null | .var _ | .const _ | .param _ | .opExpr _ _ | .nullTest _ _ | .subLink _ _ _
  | .query _ _ _ _ | .rangeTblEntry _ _ _ | .targetEntry _ _ | .list _ => rfl

theorem choicesList_notAsAnd : ∀ nodes : List (Node α),
    choicesList (notAsAndList nodes) = (picksList nodes).map notAsAndList
  | [] => rfl
  | node :: nodes => by
    rw [notAsAndList, choicesList, choices_notAsAnd node, choicesList_notAsAnd nodes, picksList]
    simp only [List.isEmpty_map]
    split <;> simp [notAsAndList]

end

theorem picks_eq_nil_iff {a : Node α} : picks a = [] ↔ choices (notAsAnd a) = [] := by
  rw [choices_notAsAnd, List.map_eq_nil_iff]

theorem load_notAsAnd (nodes : List (Node α)) :
    load (weight ∘ notAsAnd) nodes = weightSum (nodes.map notAsAnd) := by
  induction nodes with
  | nil => rfl
  | cons a nodes ih => rw [load, List.map_cons, weightSum, ih, Function.comp]

namespace Tree

theorem haveToSplit_iff {a : Node α} (h : Tree a) : haveToSplit a = true ↔ picks a ≠ [] := by
  rw [← haveToSplit_notAsAnd, ne_eq, picks_eq_nil_iff]
  constructor
  · intro hsplit hnil
    have hfree := haveToSplit_of_orFree _ (h.splittable.orFree_of_choices hnil)
    rw [hfree] at hsplit
    cases hsplit
  · exact h.splittable.haveToSplit_of_choices

theorem of_picks {a : Node α} (h : Tree a) {c : Node α} (hc : c ∈ picks a) : Tree c := by
  induction h generalizing c with
  | null | comparison _ | nullTest _ | subLink _ _ => cases hc
  | or _ hargs _ => exact hargs c hc
  | and hargs ih =>
    rw [picks, picksList_eq, List.mem_map] at hc
    · obtain ⟨cs, hcs, rfl⟩ := hc
      exact .and (forall_mem_chooseFirst hargs (fun a ha c => ih a ha) hcs)
    · simp
  | not hargs ih =>
    rw [picks, picksList_eq, List.mem_map] at hc
    · obtain ⟨cs, hcs, rfl⟩ := hc
      exact .not (forall_mem_chooseFirst hargs (fun a ha c => ih a ha) hcs)
    · simp

/-- A choice below AND or NOT leaves AND or NOT at the root. -/
theorem isOr_of_picks {a c : Node α} (hroot : isOr a = false) (hc : c ∈ picks a) :
    isOr c = false := by
  cases a with
  | boolExpr boolop args =>
    cases boolop with
    | orExpr => cases hroot
    | andExpr | notExpr =>
      simp only [picks, List.mem_map] at hc
      obtain ⟨cs, _, rfl⟩ := hc
      rfl
  | _ => cases hc

theorem splitRel_stop {a : Node α} (h : Tree a) {ctx : ContextSplit} (hstop : ctx.stop = true) :
    mutate splitRel a ctx = some (a, ctx) := by
  induction h with
  | null => rfl
  | comparison hargs => exact splitRel_copy _ ctx hargs
  | nullTest harg => exact splitRel_copy _ ctx harg
  | subLink htest hsub => exact splitRel_copy _ ctx (by simp [orFree, htest, hsub])
  | and _ ih | not _ ih | or _ _ ih => simp [mutate, splitRel, hstop, mutateList_fixed ih]

/-- Without a choice `split_rel` copies the condition. -/
theorem splitRel_of_picks {a : Node α} (h : Tree a) (hnil : picks a = []) (ctx : ContextSplit) :
    mutate splitRel a ctx = some (a, ctx) := by
  induction h with
  | null => rfl
  | comparison hargs => exact splitRel_copy _ ctx hargs
  | nullTest harg => exact splitRel_copy _ ctx harg
  | subLink htest hsub => exact splitRel_copy _ ctx (by simp [orFree, htest, hsub])
  | or hne _ _ => exact absurd hnil hne
  | and _ ih | not _ ih =>
    simp only [picks, List.map_eq_nil_iff, picksList_eq, chooseFirst_eq_nil_iff] at hnil
    simp [mutate, splitRel, mutateList_fixed fun a ha => ih a ha (hnil a ha)]

/-- `split_rel` makes the `i`-th choice, also below NOT. -/
theorem splitRel_pick {a : Node α} (h : Tree a) {i : Nat} {dup : Bool} {c : Node α}
    (hc : (picks a)[i]? = some c) :
    mutate splitRel a ⟨i, dup, false⟩ = some (c, chosen (picks a).length i) := by
  induction h generalizing c with
  | null | comparison _ | nullTest _ | subLink _ _ => simp [picks] at hc
  | @and args hargs ih | @not args hargs ih =>
    simp only [picks, picksList_eq, List.getElem?_map, Option.map_eq_some_iff] at hc
    obtain ⟨cs, hcs, rfl⟩ := hc
    have hlist := splitRelList_chooseFirst (fun a ha => (hargs a ha).splitRel_of_picks)
      (fun a ha ctx => (hargs a ha).splitRel_stop) (fun a ha c => ih a ha) hcs
    simp [picks, picksList_eq, mutate, splitRel, hlist]
  | or _ _ _ => exact splitRel_or hc

/-- The truth values that the condition can be given are those that its choices can be given. -/
theorem reaches_picks {I : Interp α} {D : Database α} {ρ : Env α} {a : Node α} (h : Tree a)
    (hne : picks a ≠ []) {p : Bool} :
    Reaches I D ρ p a ↔ ∃ c ∈ picks a, Reaches I D ρ p c := by
  -- for the arguments of an AND or a NOT
  have hand : ∀ {args : List (Node α)} {p : Bool},
      (∀ a ∈ args, picks a ≠ [] → (Reaches I D ρ p a ↔ ∃ c ∈ picks a, Reaches I D ρ p c)) →
      chooseFirst picks args ≠ [] →
      (Reaches I D ρ p (.boolExpr .andExpr args) ↔
        ∃ cs ∈ chooseFirst picks args, Reaches I D ρ p (.boolExpr .andExpr cs)) := by
    intro args p ih hne
    cases p with
    | true =>
      simp only [reaches_and_true]
      exact forall_iff_chooseFirst ih hne
    | false =>
      simp only [reaches_and_false]
      exact exists_iff_chooseFirst ih hne
  induction h generalizing p with
  | null | comparison _ | nullTest _ | subLink _ _ => exact absurd rfl hne
  | or hargs _ _ =>
    cases p with
    | true => exact reaches_or_true
    | false => exact reaches_or_false hargs
  | and _ ih =>
    simp only [picks, picksList_eq, ne_eq, List.map_eq_nil_iff] at hne
    rw [hand (fun a ha hne => ih a ha hne) hne]
    simp [picks, picksList_eq]
  | not _ ih =>
    simp only [picks, picksList_eq, ne_eq, List.map_eq_nil_iff] at hne
    rw [reaches_not, hand (fun a ha hne => ih a ha hne) hne]
    simp [picks, picksList_eq, reaches_not]

end Tree

/-- A turn of the outer loop on a condition whose root is not an OR. -/
theorem splits_tree : Splits (α := α) (fun a => Tree a ∧ isOr a = false) picks
    (weight ∘ notAsAnd) where
  pos a := weight_pos (notAsAnd a)
  stop a ha hnil := by
    rw [← Bool.not_eq_true, ha.1.haveToSplit_iff, not_not]
    exact hnil
  split a ha hne := ha.1.haveToSplit_iff.mpr hne
  choose a ha i dup c hc := by
    obtain ⟨htree, hroot⟩ := ha
    cases htree with
    | null | comparison _ | nullTest _ | subLink _ _ => simp [picks] at hc
    | or _ _ => cases hroot
    | and hargs => exact (Tree.and hargs).splitRel_pick hc
    | not hargs => exact (Tree.not hargs).splitRel_pick hc
  closed a ha c hc := ⟨ha.1.of_picks hc, Tree.isOr_of_picks ha.2 hc⟩
  lighter a ha hne := by
    rw [load_notAsAnd, ← choices_notAsAnd]
    exact ha.1.splittable.weight_choices (picks_eq_nil_iff.not.mp hne)

/-! ### ORs below an even number of NOTs -/

mutual

/-- No OR stands below an odd number of NOTs; `p` says that the number above the condition is
even. -/
def evenOrs : Bool → Node α → Bool
  | p, .boolExpr .orExpr args => p && evenOrsList p args
  | p, .boolExpr .andExpr args => evenOrsList p args
  | p, .boolExpr .notExpr args => evenOrsList (!p) args
  | _, _ => true

def evenOrsList (p : Bool) : List (Node α) → Bool
  | [] => true
  | node :: nodes => evenOrs p node && evenOrsList p nodes

end

theorem evenOrsList_iff {p : Bool} {nodes : List (Node α)} :
    evenOrsList p nodes = true ↔ ∀ a ∈ nodes, evenOrs p a = true := by
  induction nodes with
  | nil => simp [evenOrsList]
  | cons a nodes ih => simp [evenOrsList, ih]

theorem Tree.evenOrs_of_picks {a : Node α} (h : Tree a) (hnil : picks a = []) {p : Bool} :
    evenOrs p a = true := by
  induction h generalizing p with
  | null | comparison _ | nullTest _ | subLink _ _ => rfl
  | or hne _ _ => exact absurd hnil hne
  | and _ ih | not _ ih =>
    simp only [picks, List.map_eq_nil_iff, picksList_eq, chooseFirst_eq_nil_iff] at hnil
    rw [evenOrs, evenOrsList_iff]
    exact fun a ha => ih a ha (hnil a ha)

section

variable (I : Interp α) (D : Database α) (ρ : Env α)

mutual

theorem misled_of_evenOrs : ∀ (p : Bool) (a : Node α), evenOrs p a = true →
    misled I D ρ p a = false
  | true, .boolExpr .orExpr args, h | true, .boolExpr .andExpr args, h
  | false, .boolExpr .notExpr args, h | false, .boolExpr .andExpr args, h
  | true, .boolExpr .notExpr args, h => by
    rw [misled, someMisled_of_evenOrs _ args (by simpa [evenOrs] using h), Bool.and_false]
  | false, .boolExpr .orExpr _, h => by simp [evenOrs] at h
  | p, .null, _ | p, .var _, _ | p, .const _, _ | p, .param _, _ | p, .opExpr _ _, _
  | p, .nullTest _ _, _ | p, .subLink _ _ _, _ | p, .query _ _ _ _, _
  | p, .rangeTblEntry _ _ _, _ | p, .targetEntry _ _, _ | p, .list _, _ => by cases p <;> rfl

theorem someMisled_of_evenOrs : ∀ (p : Bool) (nodes : List (Node α)),
    evenOrsList p nodes = true → someMisled I D ρ p nodes = false
  | _, [], _ => rfl
  | p, node :: nodes, h => by
    rw [evenOrsList, Bool.and_eq_true] at h
    rw [someMisled, misled_of_evenOrs p node h.1, someMisled_of_evenOrs p nodes h.2, Bool.or_false]

end

end

/-! ### `trueSplit` -/

/-- Of the conditions that `trueSplit` returns one is true on a row exactly if the condition is, or
can be made so. -/
theorem trueSplit_reaches {a : Node α} (h : Tree a) (hroot : isOr a = false) :
    ∃ result : List (Node α), result ≠ [] ∧
      (∀ fuel, weight (notAsAnd a) < fuel → trueSplit fuel a = some result) ∧
      ∀ (I : Interp α) (D : Database α) (ρ : Env α),
        (∃ r ∈ result, evalCond I D r ρ = .true) ↔ Reaches I D ρ true a := by
  have hqueue : ∀ b ∈ [a], Tree b ∧ isOr b = false := List.forall_mem_singleton.mpr ⟨h, hroot⟩
  obtain ⟨result, hresult⟩ := splits_tree.exists_results _ le_rfl hqueue
  refine ⟨result, hresult.ne_nil (by simp),
    fun fuel hfuel => hresult.returns fuel [] (by simpa [load] using hfuel), fun I D ρ => ?_⟩
  have hkeeps := hresult.keeps (Reaches I D ρ true) fun a ha hne => ha.1.reaches_picks hne
  have hfinished : ∀ r ∈ result, (Reaches I D ρ true r ↔ evalCond I D r ρ = .true) := by
    intro r hr
    obtain ⟨⟨htree, -⟩, hnil⟩ := hresult.finished r hr
    have hmisled := misled_of_evenOrs I D ρ true r (htree.evenOrs_of_picks hnil)
    rw [Reaches, hmisled, wanted, if_pos rfl]
    simp
  have hpile : (∃ b ∈ [a], Reaches I D ρ true b) ↔ Reaches I D ρ true a := by simp
  rw [← hpile, hkeeps]
  exact exists_congr fun r => and_congr_right fun hr => (hfinished r hr).symm

/-- `trueSplit` on a condition with AND at its root: on a row one of the returned conditions is true
exactly if the condition is, unless the row misleads it. -/
theorem trueSplit_negation_iff {args : List (Node α)} (h : Tree (.boolExpr .andExpr args)) :
    ∃ result : List (Node α),
      (∀ fuel, weight (notAsAnd (.boolExpr .andExpr args)) < fuel →
        trueSplit fuel (.boolExpr .andExpr args) = some result) ∧
      ∀ (I : Interp α) (D : Database α) (ρ : Env α),
        (evalCond I D (.boolExpr .andExpr args) ρ = .true ↔
          ∃ r ∈ result, evalCond I D r ρ = .true) ↔
        misled I D ρ true (.boolExpr .andExpr args) = false := by
  obtain ⟨result, _, hreturns, hsome⟩ := trueSplit_reaches h rfl
  refine ⟨result, hreturns, fun I D ρ => ?_⟩
  rw [hsome]
  constructor
  · intro hiff
    rw [← Bool.not_eq_true]
    intro hmisled
    exact h.ne_of_misled hmisled (hiff.mpr (.inr hmisled))
  · intro hmisled
    rw [Reaches, hmisled, wanted, if_pos rfl]
    simp

/-- `NOT (NOT (r.a = 1 OR r.a = 2)) AND r.b IS NOT NULL` -/
def doubleNot : Node Int :=
  .boolExpr .andExpr [
    .boolExpr .notExpr [.boolExpr .notExpr [.boolExpr .orExpr [
      .opExpr 96 [.var ⟨1, 1, 0⟩, .const (some 1)],
      .opExpr 96 [.var ⟨1, 1, 0⟩, .const (some 2)]]]],
    .nullTest .isNotNull (.var ⟨1, 2, 0⟩)]

theorem doubleNot_tree : Tree doubleNot := by
  refine .and ?_
  simp only [List.forall_mem_cons, List.not_mem_nil, false_imp_iff, implies_true, and_true]
  refine ⟨.not (List.forall_mem_singleton.mpr (.not (List.forall_mem_singleton.mpr ?_))),
    .nullTest rfl⟩
  refine .or (by simp) ?_
  simp only [List.forall_mem_cons, List.not_mem_nil, false_imp_iff, implies_true, and_true]
  exact ⟨.comparison rfl, .comparison rfl⟩

theorem trueSplit_negation_iff_doubleNot :
    (∀ (I : Interp Int) (D : Database Int) (ρ : Env Int), misled I D ρ true doubleNot = false) ∧
    ∃ result : List (Node Int),
      (∀ fuel, weight (notAsAnd doubleNot) < fuel → trueSplit fuel doubleNot = some result) ∧
      ∀ (I : Interp Int) (D : Database Int) (ρ : Env Int),
        (evalCond I D doubleNot ρ = .true ↔ ∃ r ∈ result, evalCond I D r ρ = .true) ↔
        misled I D ρ true doubleNot = false :=
  ⟨fun I D ρ => misled_of_evenOrs I D ρ true doubleNot rfl, trueSplit_negation_iff doubleNot_tree⟩

/-- On a row with `r.a = 1`, `NOT (r.a = 1 OR r.a = 2)` is false, and `trueSplit` returns
`NOT (r.a = 2)`, which is true. -/
theorem trueSplit_negation_fails :
    Tree withNot ∧
    ∃ result, trueSplit 9 withNot = some result ∧
      evalCond intInterp (fun _ => [[]]) withNot ⟨[[(1, [some 1])]], []⟩ = .false ∧
      ∃ r ∈ result, evalCond intInterp (fun _ => [[]]) r ⟨[[(1, [some 1])]], []⟩ = .true :=
  ⟨withNot_tree, _, rfl, by decide, _, List.mem_cons_of_mem _ List.mem_cons_self, by decide⟩

end Infed.Split
