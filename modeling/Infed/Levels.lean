import Infed.Connected
import Infed.Exist.Components
import Infed.Self.Clauses
import Infed.Split

/-! Queries with sub-selects at every depth, for the passes that go through all of them.  `Nested`
says what may stand at each level: the conditions without sub-selects are parameters, since they are
what a pass changes, and so are the rules on which levels may have sub-selects. -/

namespace Infed

variable {α : Type}

/-- `SELECT *` over the FROM entries `rtable`, which have rows of the tables `relids`. -/
def selectStarFrom (cat : Catalog) (relids : List Oid) (rtable : List (Node α)) (quals : Node α) :
    Node α :=
  .query (Self.selectStar cat relids) rtable (List.range' 1 relids.length) quals

mutual

/-- The comparisons that link two tables, or one with an enclosing query, in every row that the
condition lets through: those in ORs are left out. -/
def directLinks : Node α → List (Option Nat × Option Nat)
  | .boolExpr .andExpr args => directLinksList args
  | .opExpr _ [.var v, .var w] =>
    if Self.tableOf v = Self.tableOf w then [] else [(Exist.place v, Exist.place w)]
  | _ => []

def directLinksList : List (Node α) → List (Option Nat × Option Nat)
  | [] => []
  | node :: nodes => directLinks node ++ directLinksList nodes

end

theorem directLinksList_eq (nodes : List (Node α)) :
    directLinksList nodes = nodes.flatMap directLinks := by
  induction nodes with
  | nil => rfl
  | cons a nodes ih => rw [directLinksList, ih, List.flatMap_cons]

theorem directLinks_and (args : List (Node α)) :
    directLinks (.boolExpr .andExpr args) = args.flatMap directLinks := by
  rw [directLinks, directLinksList_eq]

/-! ### Conjuncts that a pass changes one by one -/

section

variable {R : Node α → Node α → Prop} {args args' : List (Node α)}

theorem mutateList_forall₂ {f : Mutator α Unit} (h : List.Forall₂ R args args')
    (hrun : ∀ a a', R a a' → mutate f a () = some (a', ())) :
    mutateList f args () = some (args', ()) := by
  induction h with
  | nil => rfl
  | cons hhead _ ih => exact mutateList_cons (hrun _ _ hhead) ih

theorem evalCond_and_forall₂ {I : Interp α} {D : Database α} {ρ : Env α}
    (h : List.Forall₂ R args args')
    (hvalue : ∀ a a', R a a' → evalCond I D a' ρ = evalCond I D a ρ) :
    evalCond I D (.boolExpr .andExpr args') ρ = evalCond I D (.boolExpr .andExpr args) ρ := by
  rw [evalCond, evalCond]
  congr 1
  induction h with
  | nil => rfl
  | cons hhead _ ih => rw [evalConds, evalConds, hvalue _ _ hhead, ih]

theorem directLinks_and_forall₂ {f : Node α → Node α} (h : List.Forall₂ R args args')
    (hlinks : ∀ a a', R a a' → directLinks (f a') = directLinks a) :
    directLinks (.boolExpr .andExpr (args'.map f)) = directLinks (.boolExpr .andExpr args) := by
  rw [directLinks_and, directLinks_and, List.flatMap_map]
  exact flatMap_forall₂ h hlinks

end

/-! ### Levels -/

/-- A query with its sub-selects left aside. -/
structure Level where
  /-- The number of FROM entries. -/
  size : Nat
  /-- The FROM entries that comparisons link with an enclosing query. -/
  tied : List Nat
  /-- There are no sub-selects in the WHERE. -/
  leaf : Bool

/-- The conditions without sub-selects that may stand in the WHERE of a level. -/
abbrev Atoms (α : Type) := Level → Node α → Prop

/-- Which levels may have sub-selects, and which may be sub-selects, from their links. -/
structure Rules where
  nests : Level → Prop
  subselect : Level → List (Option Nat × Option Nat) → Prop

/-- A WHERE with EXISTS and NOT EXISTS, over atoms `A` at this level, `B` inside NOT EXISTS, and `P`
inside EXISTS, where no pass splits conditions. -/
inductive Nested (cat : Catalog) (rules : Rules) (P : Atoms α) :
    Atoms α → Atoms α → Level → Node α → Prop where
  | null {A B l} : Nested cat rules P A B l .null
  | atom {A B l a} : A l a → Nested cat rules P A B l a
  | and {A B l args} : (∀ a ∈ args, Nested cat rules P A B l a) →
    Nested cat rules P A B l (.boolExpr .andExpr args)
  | exist {A B l tied leaf relids rtable quals} : rules.nests l →
    List.Forall₂ (Self.Over cat) relids rtable →
    rules.subselect ⟨relids.length, tied, leaf⟩ (directLinks quals) →
    Nested cat rules P P P ⟨relids.length, tied, leaf⟩ quals →
    Nested cat rules P A B l
      (.subLink .existsSublink .null (selectStarFrom cat relids rtable quals))
  | notExist {A B l tied leaf relids rtable quals} : rules.nests l →
    List.Forall₂ (Self.Over cat) relids rtable →
    rules.subselect ⟨relids.length, tied, leaf⟩ (directLinks quals) →
    Nested cat rules P B B ⟨relids.length, tied, leaf⟩ quals →
    Nested cat rules P A B l (Split.notExists (selectStarFrom cat relids rtable quals))

theorem Nested.mono {cat : Catalog} {rules : Rules} {P P' A A' B B' : Atoms α}
    (hP : ∀ l a, P l a → P' l a) (hA : ∀ l a, A l a → A' l a) (hB : ∀ l a, B l a → B' l a)
    {l : Level} {a : Node α} (h : Nested cat rules P A B l a) : Nested cat rules P' A' B' l a := by
  induction h generalizing A' B' with
  | null => exact .null
  | atom h => exact .atom (hA _ _ h)
  | and _ ih => exact .and fun a ha => ih a ha hA hB
  | exist hnests hover hrule _ ih => exact .exist hnests hover hrule (ih hP hP)
  | notExist hnests hover hrule _ ih => exact .notExist hnests hover hrule (ih hB hB)

/-- Sub-selects of every kind, at every level. -/
def Rules.any : Rules where
  nests _ := True
  subselect _ _ := True

/-- The rules of `optimize_exist_deep`.  Comparisons link some tables of a sub-select with an
enclosing query, so that the sub-select keeps a FROM entry; and tables are taken out of a sub-select
only if it has none of its own, in which their columns would not be renumbered. -/
def Rules.tied : Rules where
  nests l := l.leaf = false ∧ ∀ i, 1 ≤ i → i ≤ l.size → i ∈ l.tied
  subselect l E := l.tied ≠ [] ∧ ∀ i ∈ l.tied, 1 ≤ i ∧ i ≤ l.size ∧ Connected E (some i) none

theorem Rules.tied_mono {l : Level} {E E' : List (Option Nat × Option Nat)}
    (h : Rules.tied.subselect l E) (hE : ∀ e ∈ E, e ∈ E') : Rules.tied.subselect l E' := by
  refine ⟨h.1, fun i hi => ?_⟩
  obtain ⟨h1, hn, hconn⟩ := h.2 i hi
  exact ⟨h1, hn, hconn.mono hE⟩

/-- A sub-select whose first table is linked with the enclosing query. -/
theorem Rules.tied_first {n : Nat} {leaf : Bool} {E : List (Option Nat × Option Nat)} (hn : 1 ≤ n)
    (hE : (some 1, none) ∈ E) : Rules.tied.subselect ⟨n, [1], leaf⟩ E := by
  refine ⟨by simp, fun i hi => ?_⟩
  rw [List.mem_singleton.mp hi]
  exact ⟨Nat.le_refl 1, hn, .edge hE⟩

theorem Rules.tied_nests_first : Rules.tied.nests ⟨1, [1], false⟩ :=
  ⟨rfl, fun _ h1 hn => List.mem_singleton.mpr (Nat.le_antisymm hn h1)⟩

/-! ### Atoms -/

/-- A comparison, a null test, or an OR of those.  What `my_modifier_self` takes out is on one table
of the query. -/
def Piece (l : Level) (a : Node α) : Prop :=
  Self.Clause a ∧ (Self.takes a = true → ∃ i, 1 ≤ i ∧ i ≤ l.size ∧ Self.OnTable i a)

/-- A condition on one table links nothing. -/
theorem directLinks_onTable {i : Nat} {a : Node α} (h : Self.OnTable i a) :
    directLinks a = [] := by
  cases h with
  | or => rfl
  | one h =>
    have hcolumns := fun v => h.tableOf_column (v := v)
    revert hcolumns
    unfold directLinks
    split
    · cases h
    · intro hcolumns
      rw [if_pos ((hcolumns _ (by simp [columnsOf, columnsOfList])).trans
        (hcolumns _ (by simp [columnsOf, columnsOfList])).symm)]
    · exact fun _ => rfl

theorem piece_onTable {l : Level} {a : Node α} {i : Nat} (h1 : 1 ≤ i) (hn : i ≤ l.size)
    (h : Self.OnTable i a) : Piece l a := ⟨h.clause, fun _ => ⟨i, h1, hn, h⟩⟩

theorem piece_stays {l : Level} {a : Node α} (h : Self.Clause a) (hstays : Self.takes a = false) :
    Piece l a := ⟨h, by simp [hstays]⟩

/-- A mutator with a case of its own for queries only. -/
def AtQueries (f : Mutator α Unit) : Prop :=
  ∀ node traverse, node ≠ .null → (∀ targetList rtable fromlist quals,
    node ≠ .query targetList rtable fromlist quals) → f node traverse () = traverse ()

/-- Such a mutator copies conditions without sub-selects. -/
theorem AtQueries.clause {f : Mutator α Unit} (hf : AtQueries f) {a : Node α}
    (h : Self.Clause a) : mutate f a () = some (a, ()) := by
  have hterm : ∀ a : Node α, Self.Leaf a → mutate f a () = some (a, ()) := by
    rintro a ⟨⟩ <;> exact hf _ _ (by simp) (by simp)
  have htest : ∀ a : Node α, Self.Test a → mutate f a () = some (a, ()) := by
    rintro a (h | h)
    · rw [mutate, hf _ _ (by simp) (by simp), mutateList_fixed fun a ha => hterm a (h a ha)]
      rfl
    · rw [mutate, hf _ _ (by simp) (by simp), hterm _ h]
      rfl
  cases h with
  | test h => exact htest a h
  | or h =>
    rw [mutate, hf _ _ (by simp) (by simp), mutateList_fixed fun a ha => htest a (h a ha)]
    rfl

theorem AtQueries.subLink {f : Mutator α Unit} (hf : AtQueries f) (kind : SubLinkType)
    {testexpr testout subselect out : Node α} (htest : mutate f testexpr () = some (testout, ()))
    (hsub : mutate f subselect () = some (out, ())) :
    mutate f (.subLink kind testexpr subselect) () = some (.subLink kind testout out, ()) := by
  rw [mutate, hf _ _ (by simp) (by simp), htest]
  simp only [Option.bind_eq_bind, Option.bind_some, hsub]

theorem AtQueries.not {f : Mutator α Unit} (hf : AtQueries f) {a out : Node α}
    (h : mutate f a () = some (out, ())) :
    mutate f (.boolExpr .notExpr [a]) () = some (.boolExpr .notExpr [out], ()) := by
  rw [mutate, hf _ _ (by simp) (by simp)]
  simp only [mutateList, h, Option.bind_eq_bind, Option.bind_some]

/-- A comparison that links two tables, or one with an enclosing query; the tables are tied. -/
inductive Link (l : Level) : Node α → Prop where
  | mk {opno v w} : (v.varlevelsup = 0 → v.varno ∈ l.tied) →
    (w.varlevelsup = 0 → w.varno ∈ l.tied) → Self.tableOf v ≠ Self.tableOf w →
    Link l (.opExpr opno [.var v, .var w])

theorem link_first (n : Nat) (leaf : Bool) (opno : Oid) (j : Nat) :
    Link ⟨n, [1], leaf⟩ (.opExpr opno [.var ⟨1, j, 0⟩, .var ⟨1, j, 1⟩] : Node α) :=
  .mk (fun _ => List.mem_cons_self) (fun h => by cases h) (by simp [Self.tableOf])

theorem Link.takes {l : Level} {a : Node α} (h : Link l a) : Self.takes a = false := by
  obtain ⟨_, _, hne⟩ := h
  exact Self.takes_linking hne _

/-- A comparison or null test on one table. -/
def OnOne (l : Level) (a : Node α) : Prop := ∃ i, 1 ≤ i ∧ i ≤ l.size ∧ Self.Local i a

/-- A conjunct of a sub-select without ORs. -/
def Single (l : Level) (a : Node α) : Prop := Link l a ∨ OnOne l a

theorem Single.test {l : Level} {a : Node α} (h : Single l a) : Self.Test a := by
  rcases h with ⟨_, _, _⟩ | ⟨_, _, _, h⟩
  · exact .comparison (by simpa using ⟨.column, .column⟩)
  · exact h.test

theorem Single.piece {l : Level} {a : Node α} (h : Single l a) : Piece l a := by
  refine ⟨.test h.test, fun htakes => ?_⟩
  rcases h with h | ⟨i, h1, hn, h⟩
  · rw [h.takes] at htakes
    cases htakes
  · exact ⟨i, h1, hn, .one h⟩

/-- An OR of comparisons and null tests that stays in the WHERE.  The sub-select has none of its
own: the alternatives into which it is split would share them, and `optimize_exist_deep`, which
rewrites in place, would rewrite them more than once. -/
inductive Alternatives (l : Level) : Node α → Prop where
  | or {args} : l.leaf = true → args ≠ [] → (∀ a ∈ args, Single l a) →
    Self.takes (.boolExpr .orExpr args) = false → Alternatives l (.boolExpr .orExpr args)

/-- A comparison or null test on one table, or an OR of those. -/
def Movable (l : Level) (a : Node α) : Prop := ∃ i, 1 ≤ i ∧ i ≤ l.size ∧ Self.OnTable i a

/-- A conjunct of an EXISTS. -/
def Positive (l : Level) (a : Node α) : Prop := Link l a ∨ Movable l a

/-- A conjunct of a NOT EXISTS. -/
def Negative (l : Level) (a : Node α) : Prop := Positive l a ∨ Alternatives l a

end Infed
