import Infed.Eval
import Infed.Fragment

/-! The translation of conditions at a polarity: each atom is replaced, in one way where it counts
positively and in another where it counts negatively, and everything else is kept.  If the two
replacements under- and over-approximate the atom from one database to another, the translation
under- and over-approximates the condition. -/

namespace Infed

variable {α : Type}

mutual

/-- The condition at polarity `p` with `leaf p` for each atom. -/
def translate (leaf : Bool → Node α → Node α) (p : Bool) : Node α → Node α
  | .null => .null
  | .boolExpr .notExpr args => .boolExpr .notExpr (translateList leaf (!p) args)
  | .boolExpr boolop args => .boolExpr boolop (translateList leaf p args)
  | .subLink kind testexpr subselect => .subLink kind testexpr (translate leaf p subselect)
  | .query targetList rtable fromlist quals =>
    .query targetList rtable fromlist (translate leaf p quals)
  | a => leaf p a

def translateList (leaf : Bool → Node α → Node α) (p : Bool) : List (Node α) → List (Node α)
  | [] => []
  | node :: nodes => translate leaf p node :: translateList leaf p nodes

end

theorem translateList_eq_map (leaf : Bool → Node α → Node α) (p : Bool) (nodes : List (Node α)) :
    translateList leaf p nodes = nodes.map (translate leaf p) := by
  induction nodes with
  | nil => rfl
  | cons node nodes ih => simp [translateList, ih]

theorem translate_existsFrom (leaf : Bool → Node α → Node α) (p : Bool)
    (targetList : List (Node α)) (relids : List Oid) (quals : Node α) :
    translate leaf p (existsFrom targetList relids quals) =
      existsFrom targetList relids (translate leaf p quals) := by
  simp [existsFrom, selectFrom, translate]

theorem Node.isExists_translate {leaf : Bool → Node α → Node α} {p : Bool} {a : Node α}
    (ha : a.isExists) : (translate leaf p a).isExists := by
  unfold Node.isExists at ha
  split at ha
  · simp [translate, Node.isExists]
  · cases ha

/-! ### Related rows -/

/-- Combinations of rows over the same FROM entries, related row by row. -/
def RowsRel (R : Row α → Row α → Prop) : List (Nat × Row α) → List (Nat × Row α) → Prop :=
  List.Forall₂ fun x y => x.1 = y.1 ∧ R x.2 y.2

def Env.Rel (R : Row α → Row α → Prop) (ρ ρ' : Env α) : Prop :=
  List.Forall₂ (RowsRel R) ρ.levels ρ'.levels

/-- The rows with numbers `ks` of the tables `relids`, one for each FROM entry. -/
def rowsAt (D : Database α) (relids : List Oid) (ks : List Nat) : List (Nat × Row α) :=
  (relids.zip ks).mapIdx fun i x => (i + 1, (D x.1).getD x.2 [])

/-- The environment of a condition: for each query around it, the rows with the given numbers. -/
def envAt (D : Database α) (os : Scopes) (kss : List (List Nat)) : Env α :=
  ⟨(os.zip kss).map fun x => rowsAt D x.1 x.2, []⟩

section

variable {R : Row α → Row α → Prop} {ρ ρ' : Env α}

theorem Env.Rel.push (h : ρ.Rel R ρ') {z z' : List (Nat × Row α)} (hz : RowsRel R z z') :
    (ρ.push z).Rel R (ρ'.push z') := .cons hz h

theorem RowsRel.lookup (hR : R [] []) {z z' : List (Nat × Row α)} (h : RowsRel R z z') (n : Nat) :
    R ((z.lookup n).getD []) ((z'.lookup n).getD []) := by
  induction h with
  | nil => exact hR
  | @cons x x' z z' hx _ ih =>
    obtain ⟨i, r⟩ := x
    obtain ⟨i', r'⟩ := x'
    obtain ⟨hi, hr⟩ := hx
    simp only at hi hr
    subst hi
    by_cases e : n = i
    · subst e
      simpa [List.lookup_cons] using hr
    · have hne : (n == i) = false := by simpa using e
      simpa [List.lookup_cons, hne] using ih

theorem Env.Rel.row (hR : R [] []) (h : ρ.Rel R ρ') (l n : Nat) : R (ρ.row l n) (ρ'.row l n) := by
  have hlevel : RowsRel R (ρ.levels.getD l []) (ρ'.levels.getD l []) := forall₂_getD h .nil l
  exact hlevel.lookup hR n

/-- Each combination of rows of related tables has a related one. -/
theorem exists_combination {T T' : List (List (Row α))}
    (hT : List.Forall₂ (List.Forall₂ R) T T') {fromlist : List Nat} {z : List (Nat × Row α)}
    (hz : z ∈ combinations T fromlist) : ∃ z' ∈ combinations T' fromlist, RowsRel R z z' := by
  rw [combinations, List.mem_sections] at hz
  induction fromlist generalizing z with
  | nil =>
    cases hz
    exact ⟨[], by simp [combinations], List.Forall₂.nil⟩
  | cons i fromlist ih =>
    obtain ⟨x, z, hx, hrest, rfl⟩ := List.forall₂_cons_right_iff.mp hz
    obtain ⟨z', hz', hrel⟩ := ih hrest
    obtain ⟨r, hr, rfl⟩ := List.mem_map.mp hx
    obtain ⟨n, hn, rfl⟩ := List.getElem_of_mem hr
    have htab := forall₂_getD hT .nil (i - 1)
    rw [List.forall₂_iff_get] at htab
    have hn' : n < (T'.getD (i - 1) []).length := htab.1 ▸ hn
    refine ⟨(i, (T'.getD (i - 1) [])[n]) :: z', ?_, .cons ⟨rfl, htab.2 n hn hn'⟩ hrel⟩
    rw [combinations, List.mem_sections] at hz' ⊢
    exact .cons (List.mem_map_of_mem (List.getElem_mem hn')) hz'

/-- And each one of the other tables' is related to one of these. -/
theorem exists_combination_left {T T' : List (List (Row α))}
    (hT : List.Forall₂ (List.Forall₂ R) T T') {fromlist : List Nat} {z' : List (Nat × Row α)}
    (hz' : z' ∈ combinations T' fromlist) : ∃ z ∈ combinations T fromlist, RowsRel R z z' := by
  have hflip : List.Forall₂ (List.Forall₂ (flip R)) T' T :=
    List.Forall₂.flip (hT.imp fun _ _ h => List.Forall₂.flip h)
  obtain ⟨z, hz, hrel⟩ := exists_combination hflip hz'
  exact ⟨z, hz, List.Forall₂.flip (hrel.imp fun _ _ h => ⟨h.1.symm, h.2⟩)⟩

theorem forall₂_map_tables {D D' : Database α} (hD : ∀ relid, List.Forall₂ R (D relid) (D' relid))
    (relids : List Oid) : List.Forall₂ (List.Forall₂ R) (relids.map D) (relids.map D') := by
  induction relids with
  | nil => exact .nil
  | cons relid relids ih => exact .cons (hD relid) ih

theorem envAt_rel {D D' : Database α} (hD : ∀ relid, List.Forall₂ R (D relid) (D' relid))
    (hR : R [] []) (os : Scopes) (kss : List (List Nat)) :
    (envAt D os kss).Rel R (envAt D' os kss) := by
  have hrows : ∀ relids ks, RowsRel R (rowsAt D relids ks) (rowsAt D' relids ks) := by
    intro relids ks
    rw [RowsRel, List.forall₂_iff_get]
    refine ⟨by simp [rowsAt], fun i h1 h2 => ?_⟩
    simp only [rowsAt, List.get_eq_getElem, List.getElem_mapIdx, true_and]
    exact forall₂_getD (hD _) hR _
  simp only [Env.Rel, envAt, List.forall₂_map_left_iff, List.forall₂_map_right_iff]
  exact List.forall₂_same.mpr fun x _ => hrows x.1 x.2

end

theorem evalRtable_baseTables (I : Interp α) (D : Database α) (relids : List Oid) (ρ : Env α) :
    evalRtable I D (relids.map baseTable) ρ = relids.map D := by
  induction relids with
  | nil => rfl
  | cons relid relids ih => simp [evalRtable, evalRte, baseTable, ih]

/-- EXISTS over base tables is true exactly when a combination of their rows satisfies the WHERE. -/
theorem evalCond_existsFrom_eq_true {I : Interp α} {D : Database α} {targetList : List (Node α)}
    {relids : List Oid} {quals : Node α} {ρ : Env α} :
    evalCond I D (existsFrom targetList relids quals) ρ = .true ↔
      ∃ z ∈ combinations (relids.map D) (List.range' 1 relids.length),
        evalCond I D quals (ρ.push z) = .true := by
  rw [existsFrom, selectFrom, evalCond_exists_eq_true, evalRtable_baseTables]

/-! ### Soundness -/

mutual

/-- Whether every atom counts in a way that `ok` allows, for its polarity `p` and the truth value
`s` of it that matters.  NOT exchanges both, and for EXISTS it matters where the WHERE is true. -/
def counted (ok : Bool → Bool → Bool) : Bool → Bool → Node α → Bool
  | _, _, .null => true
  | p, s, .boolExpr .notExpr args => countedList ok (!p) (!s) args
  | p, s, .boolExpr _ args => countedList ok p s args
  | p, _, .subLink _ _ subselect => counted ok p true subselect
  | p, _, .query _ _ _ quals => counted ok p true quals
  | p, s, _ => ok p s

def countedList (ok : Bool → Bool → Bool) : Bool → Bool → List (Node α) → Bool
  | _, _, [] => true
  | p, s, node :: nodes => counted ok p s node && countedList ok p s nodes

end

theorem countedList_eq_all (ok : Bool → Bool → Bool) (p s : Bool) (nodes : List (Node α)) :
    countedList ok p s nodes = nodes.all (counted ok p s) := by
  induction nodes with
  | nil => rfl
  | cons node nodes ih => simp [countedList, ih]

theorem counted_existsFrom (ok : Bool → Bool → Bool) (p s : Bool) (targetList : List (Node α))
    (relids : List Oid) (quals : Node α) :
    counted ok p s (existsFrom targetList relids quals) = counted ok p true quals := by
  simp [existsFrom, selectFrom, counted]

section

variable {I : Interp α} {D D' : Database α} {R : Row α → Row α → Prop}
  {leaf : Bool → Node α → Node α} {atom : Scopes → Node α → Prop} {os : Scopes}

/-- EXISTS over related tables. -/
theorem carries_existsFrom (hD : ∀ relid, List.Forall₂ R (D relid) (D' relid))
    (targetList : List (Node α)) (relids : List Oid) {p : Bool} {quals quals' : Node α}
    {ρ ρ' : Env α}
    (h : ∀ z z', z ∈ combinations (relids.map D) (List.range' 1 relids.length) → RowsRel R z z' →
      Kleene.Carries p true (evalCond I D quals' (ρ.push z)) (evalCond I D' quals (ρ'.push z'))) :
    Kleene.Carries p true (evalCond I D (existsFrom targetList relids quals') ρ)
      (evalCond I D' (existsFrom targetList relids quals) ρ') := by
  have htables := forall₂_map_tables hD relids
  cases p with
  | true =>
    simp only [Kleene.Carries, if_true, Kleene.ofBool, evalCond_existsFrom_eq_true] at h ⊢
    rintro ⟨z, hz, hquals⟩
    obtain ⟨z', hz', hrel⟩ := exists_combination htables hz
    exact ⟨z', hz', h z z' hz hrel hquals⟩
  | false =>
    simp only [Kleene.Carries, Bool.false_eq_true, if_false, if_true, Kleene.ofBool,
      evalCond_existsFrom_eq_true] at h ⊢
    rintro ⟨z', hz', hquals⟩
    obtain ⟨z, hz, hrel⟩ := exists_combination_left htables hz'
    exact ⟨z, hz, h z z' hz hrel hquals⟩

/-- The arguments of an AND or OR, one by one. -/
theorem carries_args {f : Node α → Node α} {args : List (Node α)} {p s : Bool} {ρ ρ' : Env α}
    (h : ∀ a ∈ args, Kleene.Carries p s (evalCond I D (f a) ρ) (evalCond I D' a ρ')) :
    List.Forall₂ (Kleene.Carries p s) (evalConds I D (args.map f) ρ) (evalConds I D' args ρ') := by
  rw [evalConds_eq_map, evalConds_eq_map, List.map_map, List.forall₂_map_left_iff,
    List.forall₂_map_right_iff]
  exact List.forall₂_same.mpr h

/-- If, between related environments, `leaf p` of an atom stands for the atom wherever `ok` allows
it, then the translation of a condition stands for the condition. -/
theorem translate_carries {ok : Bool → Bool → Bool} {freeNot : Prop}
    (hD : ∀ relid, List.Forall₂ R (D relid) (D' relid))
    (hatom : ∀ os a, atom os a → ∃ opno args, a = .opExpr opno args)
    (hleaf : ∀ os a, atom os a → ∀ p s, ok p s = true → ∀ ρ ρ', Env.Rel R ρ ρ' →
      Kleene.Carries p s (evalCond I D (leaf p a) ρ) (evalCond I D' a ρ'))
    {a : Node α} (h : Cond atom freeNot os a) {p s : Bool} (hok : counted ok p s a = true)
    {ρ ρ' : Env α} (hρ : ρ.Rel R ρ') :
    Kleene.Carries p s (evalCond I D (translate leaf p a) ρ) (evalCond I D' a ρ') := by
  induction h generalizing p s ρ ρ' with
  | leaf ha =>
    obtain ⟨opno, args, rfl⟩ := hatom _ _ ha
    have hsame : translate leaf p (.opExpr opno args) = leaf p (.opExpr opno args) := rfl
    rw [hsame]
    exact hleaf _ _ ha p s hok ρ ρ' hρ
  | null => exact .refl p s _
  | and _ _ ih =>
    simp only [counted, countedList_eq_all, List.all_eq_true] at hok
    simp only [translate, translateList_eq_map, evalCond]
    exact .conj (carries_args fun a ha => ih a ha (hok a ha) hρ)
  | or _ _ ih =>
    simp only [counted, countedList_eq_all, List.all_eq_true] at hok
    simp only [translate, translateList_eq_map, evalCond]
    exact .disj (carries_args fun a ha => ih a ha (hok a ha) hρ)
  | not _ _ ih =>
    simp only [counted, countedList, Bool.and_true] at hok
    simp only [translate, translateList, evalCond_not]
    exact (ih hok hρ).not
  | @exist os targetList relids quals _ ih =>
    rw [counted_existsFrom] at hok
    rw [translate_existsFrom]
    have hexists := carries_existsFrom hD targetList relids
      fun _ _ _ hrel => ih hok (hρ.push hrel)
    simp only [existsFrom, evalCond] at hexists ⊢
    exact hexists.twoValued s

end

/-- Where NOT stands only in front of EXISTS, what counts of an atom is where it is true. -/
theorem Cond.counted {atom : Scopes → Node α → Prop}
    (hatom : ∀ os a, atom os a → ∃ opno args, a = .opExpr opno args) {os : Scopes} {a : Node α}
    (h : Cond atom False os a) (p : Bool) : Infed.counted (fun _ s => s) p true a = true := by
  induction h generalizing p with
  | leaf ha =>
    obtain ⟨opno, args, rfl⟩ := hatom _ _ ha
    rfl
  | null => rfl
  | and _ _ ih | or _ _ ih =>
    simp only [Infed.counted, countedList_eq_all, List.all_eq_true]
    exact fun a ha => ih a ha p
  | @not os a hex ha ih =>
    have hex' : a.isExists := hex.resolve_left id
    cases ha with
    | leaf ha =>
      obtain ⟨opno, args, rfl⟩ := hatom _ _ ha
      cases hex'
    | null | and _ _ | or _ _ | not _ _ => cases hex'
    | exist _ =>
      have hquals := ih (!p)
      rw [counted_existsFrom] at hquals
      simp only [Infed.counted, countedList, counted_existsFrom, hquals, Bool.and_true]
  | exist _ ih =>
    rw [counted_existsFrom]
    exact ih p

/-- If, between related environments, `leaf true` of an atom is true only where the atom is, and
`leaf false` wherever the atom is, then the translations of conditions are so too. -/
theorem translate_sound {I : Interp α} {D D' : Database α} {R : Row α → Row α → Prop}
    {leaf : Bool → Node α → Node α} {atom : Scopes → Node α → Prop}
    (hD : ∀ relid, List.Forall₂ R (D relid) (D' relid))
    (hatom : ∀ os a, atom os a → ∃ opno args, a = .opExpr opno args)
    (hpos : ∀ os a, atom os a → ∀ ρ ρ', Env.Rel R ρ ρ' →
      evalCond I D (leaf true a) ρ = .true → evalCond I D' a ρ' = .true)
    (hneg : ∀ os a, atom os a → ∀ ρ ρ', Env.Rel R ρ ρ' →
      evalCond I D' a ρ' = .true → evalCond I D (leaf false a) ρ = .true)
    {os : Scopes} {a : Node α} (h : Cond atom False os a) {ρ ρ' : Env α} (hρ : ρ.Rel R ρ') :
    (evalCond I D (translate leaf true a) ρ = .true → evalCond I D' a ρ' = .true) ∧
      (evalCond I D' a ρ' = .true → evalCond I D (translate leaf false a) ρ = .true) := by
  have hcarries : ∀ p, Kleene.Carries p true (evalCond I D (translate leaf p a) ρ)
      (evalCond I D' a ρ') := by
    refine fun p => translate_carries hD hatom ?_ h (h.counted hatom p) hρ
    rintro os a ha p s rfl ρ ρ' hρ
    cases p with
    | true => exact hpos os a ha ρ ρ' hρ
    | false => exact hneg os a ha ρ ρ' hρ
  exact ⟨hcarries true, hcarries false⟩

end Infed
