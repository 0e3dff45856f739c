import Infed.CellFamily
import Infed.Exist.Connectivity
import Mathlib.Data.List.Pairwise

/-! `create_connexe` on the lists as they are: pointers to cells that `list_concat` links in place.
As long as no three columns follow one another without an operator that ends between them, the lists
have no cell in common, and the walk computes what it does on values.  A column of an enclosing
query that comes second leaves `varno_en_cours` at a table that has just been put into
`composante_connexe_sub_level`; with the next one, this list is concatenated with itself, which is
an error. -/

namespace Infed.Exist.Cells

open CellList

variable {α : Type}

/-! ### The walk -/

structure ContextExists where
  heap : Heap Nat
  composanteConnexeSubLevel : ListPtr
  listComposantesConnexes : List ListPtr
  varnoEnCours : Option Nat
  varSub : Bool

/-- One round of the loop of `make_context_exists`. -/
def addVarno (ctx : ContextExists) (varno : Nat) : Option ContextExists := do
  let (heap, tmp) ← ctx.heap.lappend none varno
  some { ctx with heap, listComposantesConnexes := ctx.listComposantesConnexes ++ [tmp] }

def makeContextExists (nbVarno : Nat) : Option ContextExists :=
  (List.range' 1 nbVarno).foldlM addVarno ⟨.empty, none, [], none, false⟩

/-- The first of the components with this table, or NULL. -/
def findCompo (heap : Heap Nat) (varno : Nat) : List ListPtr → Option ListPtr
  | [] => some none
  | compo :: compos => do
    if ← heap.any (· == varno) compo then some compo else findCompo heap varno compos

/-- The components without this table. -/
def withoutVarno (heap : Heap Nat) (varno : Nat) : List ListPtr → Option (List ListPtr)
  | [] => some []
  | compo :: compos => do
    let isIn ← heap.any (· == varno) compo
    let rest ← withoutVarno heap varno compos
    some (if isIn then rest else compo :: rest)

namespace ContextExists

def isSub (varno : Nat) (ctx : ContextExists) : Option Bool :=
  ctx.heap.any (· == varno) ctx.composanteConnexeSubLevel

def returnList (varno : Nat) (ctx : ContextExists) : Option ListPtr := do
  match ← findCompo ctx.heap varno ctx.listComposantesConnexes with
  | some compo => some (some compo)
  | none => if ← ctx.isSub varno then some ctx.composanteConnexeSubLevel else some none

def removeFromList (varno : Nat) (ctx : ContextExists) : Option ContextExists := do
  let listComposantesConnexes ← withoutVarno ctx.heap varno ctx.listComposantesConnexes
  some { ctx with listComposantesConnexes }

/-- The component of `varno` joins those that an enclosing query restricts. -/
def toSubLevel (varno : Nat) (ctx : ContextExists) : Option ContextExists := do
  let b ← ctx.returnList varno
  let (heap, composanteConnexeSubLevel) ← ctx.heap.listConcat ctx.composanteConnexeSubLevel b
  { ctx with heap, composanteConnexeSubLevel }.removeFromList varno

/-- The components of two tables become one. -/
def join (varno varno' : Nat) (ctx : ContextExists) : Option ContextExists := do
  let a ← ctx.returnList varno
  let b ← ctx.returnList varno'
  if a = b then some ctx
  else do
    let ctx ← ctx.removeFromList varno
    let ctx ← ctx.removeFromList varno'
    let (heap, compo) ← ctx.heap.listConcat a b
    some { ctx with heap, listComposantesConnexes := ctx.listComposantesConnexes ++ [compo] }

/-- The `Var` case of `create_connexe`. -/
def enterVar (v : Var) (ctx : ContextExists) : Option ContextExists :=
  match ctx.varnoEnCours with
  | none => do
    let restricted ← if v.varlevelsup > 0 then some true else ctx.isSub v.varno
    some { ctx with varnoEnCours := some v.varno, varSub := ctx.varSub || restricted }
  | some varno => do
    let sub ← ctx.isSub v.varno
    if ctx.varSub && (sub || v.varlevelsup > 0) then some ctx
    else if ctx.varSub && !sub && v.varlevelsup == 0 then ctx.toSubLevel v.varno
    else if sub || v.varlevelsup > 0 then ctx.toSubLevel varno
    else ctx.join varno v.varno

/-- The end of an `OpExpr`. -/
def forget (ctx : ContextExists) : ContextExists :=
  { ctx with varnoEnCours := none, varSub := false }

end ContextExists

/-- One call of `create_connexe`; `none` is the error, which ends the walk. -/
def createConnexe : Walker α (Option ContextExists)
  | .null, _, ctx => (false, ctx)
  | .opExpr _ _, rest, ctx =>
    let (retour, ctx) := rest ctx
    (retour, ctx.map .forget)
  | .var v, _, ctx => (false, ctx.bind (·.enterVar v))
  | _, rest, ctx => rest ctx

/-! ### Lists and values -/

/-- The table is in the list with these cells. -/
def has (heap : Heap Nat) (varno : Nat) (x : ListPtr × List Nat) : Bool :=
  (heap.contents x.2).contains varno

variable {heap : Heap Nat} {parts : List (ListPtr × List Nat)} {varno : Nat}

theorem any_eq (varno : Nat) {x : ListPtr × List Nat} (hx : heap.Holds x.1 x.2) :
    heap.any (· == varno) x.1 = some (has heap varno x) := by
  rw [Heap.any_of_foreach hx.foreach, List.any_beq', has]

theorem findCompo_eq (varno : Nat) (hparts : ∀ x ∈ parts, heap.Holds x.1 x.2) :
    findCompo heap varno (parts.map Prod.fst) =
      some ((parts.find? (has heap varno)).bind Prod.fst) := by
  induction parts with
  | nil => rfl
  | cons x parts ih =>
    rw [List.forall_mem_cons] at hparts
    rw [List.map_cons, findCompo, any_eq varno hparts.1, List.find?_cons, ih hparts.2]
    cases has heap varno x <;> rfl

theorem withoutVarno_eq (varno : Nat) (hparts : ∀ x ∈ parts, heap.Holds x.1 x.2) :
    withoutVarno heap varno (parts.map Prod.fst) =
      some ((parts.filter (!has heap varno ·)).map Prod.fst) := by
  induction parts with
  | nil => rfl
  | cons x parts ih =>
    rw [List.forall_mem_cons] at hparts
    rw [List.map_cons, withoutVarno, any_eq varno hparts.1, ih hparts.2, List.filter_cons]
    cases has heap varno x <;> rfl

/-- The lists of the context, with the cells `as` and those in `parts`, are those of the context
`ctx` on values. -/
structure Shows (c : ContextExists) (ctx : Exist.ContextExists) (as : List Nat)
    (parts : List (ListPtr × List Nat)) : Prop where
  apart : c.heap.Apart ((c.composanteConnexeSubLevel, as) :: parts)
  pointers : parts.map Prod.fst = c.listComposantesConnexes
  components : parts.map (fun x => c.heap.contents x.2) = ctx.listComposantesConnexes
  subLevel : c.heap.contents as = ctx.composanteConnexeSubLevel
  distinct : parts.Pairwise fun x y =>
    (c.heap.contents x.2).Disjoint (c.heap.contents y.2)
  varnoEnCours : c.varnoEnCours = ctx.varnoEnCours
  varSub : c.varSub = ctx.varSub

namespace Shows

variable {c : ContextExists} {ctx : Exist.ContextExists} {as : List Nat}

theorem holds (s : Shows c ctx as parts) : ∀ x ∈ parts, c.heap.Holds x.1 x.2 :=
  fun x hx => s.apart.holds x (List.mem_cons_of_mem _ hx)

theorem isSub (s : Shows c ctx as parts) (varno : Nat) :
    c.isSub varno = some (ctx.isSub varno) := by
  have hsub := any_eq varno (s.apart.holds _ List.mem_cons_self)
  rw [has, s.subLevel] at hsub
  exact hsub

/-- Two different components have no table in common. -/
theorem disjoint (s : Shows c ctx as parts) {x y : ListPtr × List Nat} (hx : x ∈ parts)
    (hy : y ∈ parts) (hne : x ≠ y) : (c.heap.contents x.2).Disjoint (c.heap.contents y.2) := by
  have hsymm : Std.Symm fun x y : ListPtr × List Nat =>
      (c.heap.contents x.2).Disjoint (c.heap.contents y.2) := ⟨fun _ _ h _ hy hx => h hx hy⟩
  exact s.distinct.forall hx hy hne

theorem eq_of_has (s : Shows c ctx as parts) {x y : ListPtr × List Nat} (hx : x ∈ parts)
    (hy : y ∈ parts) (hhas : has c.heap varno x = true) (hhas' : has c.heap varno y = true) :
    y = x := by
  by_contra hne
  exact s.disjoint hy hx hne (List.contains_iff_mem.mp hhas') (List.contains_iff_mem.mp hhas)

/-- The list that is found is the one with the table, or NULL if there is none. -/
theorem returnList (s : Shows c ctx as parts) (hsub : ctx.isSub varno = false) :
    ∃ x, c.returnList varno = some x.1 ∧ ctx.returnList varno = c.heap.contents x.2 ∧
      (x = (none, []) ∨ x ∈ parts ∧ has c.heap varno x = true) ∧
      ∀ y ∈ parts, has c.heap varno y = true → y = x := by
  have hfind := findCompo_eq varno s.holds
  rw [s.pointers] at hfind
  have hvalue : ctx.listComposantesConnexes.find? (·.contains varno) =
      (parts.find? (has c.heap varno)).map fun x => c.heap.contents x.2 := by
    rw [← s.components, List.find?_map]
    rfl
  cases hx : parts.find? (has c.heap varno) with
  | none =>
    rw [hx] at hfind hvalue
    refine ⟨(none, []), ?_, ?_, .inl rfl, fun y hy hhas => ?_⟩
    · simp [ContextExists.returnList, hfind, s.isSub, hsub]
    · rw [Exist.ContextExists.returnList, hvalue, Option.map_none, hsub]
      rfl
    · exact absurd hhas (List.find?_eq_none.mp hx y hy)
  | some x =>
    rw [hx] at hfind hvalue
    have hmem := List.mem_of_find?_eq_some hx
    have hhas := List.find?_some hx
    refine ⟨x, ?_, ?_, .inr ⟨hmem, hhas⟩, fun y hy hhas' => s.eq_of_has hmem hy hhas hhas'⟩
    · obtain ⟨l, cells⟩ := x
      cases l with
      | none =>
        -- NULL has no table
        cases s.holds _ hmem
        simp [has, Heap.contents] at hhas
      | some p => simp [ContextExists.returnList, hfind]
    · rw [Exist.ContextExists.returnList, hvalue, Option.map_some]

theorem components_filter (s : Shows c ctx as parts) {heap : Heap Nat}
    (hsame : ∀ x ∈ parts, heap.contents x.2 = c.heap.contents x.2) (varno : Nat) :
    (parts.filter (!has c.heap varno ·)).map (fun x => heap.contents x.2) =
      (ctx.removeFromList varno).listComposantesConnexes := by
  rw [Exist.ContextExists.removeFromList, ← s.components, List.filter_map]
  exact List.map_congr_left fun x hx => hsame x (List.mem_of_mem_filter hx)

theorem distinct_filter (s : Shows c ctx as parts) {heap : Heap Nat}
    (hsame : ∀ x ∈ parts, heap.contents x.2 = c.heap.contents x.2)
    (p : ListPtr × List Nat → Bool) : (parts.filter p).Pairwise fun x y =>
      (heap.contents x.2).Disjoint (heap.contents y.2) := by
  refine (s.distinct.filter p).imp_of_mem fun {x y} hx hy h => ?_
  rw [hsame x (List.mem_of_mem_filter hx), hsame y (List.mem_of_mem_filter hy)]
  exact h

theorem removeFromList (s : Shows c ctx as parts) (varno : Nat) :
    ∃ c', c.removeFromList varno = some c' ∧ c'.heap = c.heap ∧
      c'.composanteConnexeSubLevel = c.composanteConnexeSubLevel ∧
      Shows c' (ctx.removeFromList varno) as (parts.filter (!has c.heap varno ·)) := by
  have hwithout := withoutVarno_eq varno s.holds
  rw [s.pointers] at hwithout
  refine ⟨{ c with listComposantesConnexes := (parts.filter (!has c.heap varno ·)).map Prod.fst },
    by simp only [ContextExists.removeFromList, hwithout, Option.bind_eq_bind, Option.bind_some],
    rfl, rfl, s.apart.subperm ((List.subperm_cons _).mpr List.filter_sublist.subperm), rfl,
    s.components_filter (fun _ _ => rfl) varno, s.subLevel,
    s.distinct_filter (fun _ _ => rfl) _, s.varnoEnCours, s.varSub⟩

/-- The component is linked to the other list before it is taken out of the components. -/
theorem toSubLevel (s : Shows c ctx as parts) (hsub : ctx.isSub varno = false) :
    ∃ c' as' parts', c.toSubLevel varno = some c' ∧
      Shows c' (ctx.toSubLevel varno) as' parts' := by
  obtain ⟨x, hreturn, hvalue, hx, hothers⟩ := s.returnList hsub
  have hfamily : c.heap.Apart ((c.composanteConnexeSubLevel, as) ::
      x :: parts.filter (!has c.heap varno ·)) := by
    have hsubperm : ([x] ++ parts.filter (!has c.heap varno ·)).Subperm ((none, []) :: parts) :=
      Heap.subperm_filter (List.nodup_singleton x) (List.forall_mem_singleton.mpr
        (hx.imp_right fun h => ⟨h.1, by simp [h.2]⟩))
    refine s.apart.null.subperm ?_
    exact ((List.subperm_cons _).mpr hsubperm).trans (List.Perm.swap _ _ _).subperm
  obtain ⟨heap, hrun, hapart, hholds, hcontents⟩ := hfamily.listConcat
  have hsame : ∀ y ∈ parts, heap.contents y.2 = c.heap.contents y.2 := fun y hy =>
    hcontents y.2 (s.holds y hy).lt
  have hall : ∀ y ∈ parts, heap.Holds y.1 y.2 := by
    intro y hy
    cases hin : has c.heap varno y with
    | true => exact hothers y hy hin ▸ hholds
    | false =>
      exact hapart.holds y (List.mem_cons_of_mem _ (List.mem_filter.mpr ⟨hy, by simp [hin]⟩))
  have hwithout := withoutVarno_eq varno hall
  rw [s.pointers, List.filter_congr fun y hy => by rw [has, hsame y hy, ← has]] at hwithout
  refine ⟨{ c with
      heap
      composanteConnexeSubLevel := c.composanteConnexeSubLevel.or x.1
      listComposantesConnexes := (parts.filter (!has c.heap varno ·)).map Prod.fst },
    as ++ x.2, parts.filter (!has c.heap varno ·), ?_, hapart, rfl,
    s.components_filter hsame varno, ?_, s.distinct_filter hsame _, s.varnoEnCours, s.varSub⟩
  · simp only [ContextExists.toSubLevel, hreturn, hrun, Option.bind_eq_bind, Option.bind_some,
      ContextExists.removeFromList, hwithout]
  · have hlt := hfamily.holds _ List.mem_cons_self
    have hlt' := hfamily.holds x (List.mem_cons_of_mem _ List.mem_cons_self)
    rw [Heap.contents_append, hcontents as hlt.lt, hcontents x.2 hlt'.lt, s.subLevel, ← hvalue]
    rfl

theorem contents_ne (s : Shows c ctx as parts) {varno' : Nat} {x y : ListPtr × List Nat}
    (hx : x = (none, []) ∨ x ∈ parts ∧ has c.heap varno x = true)
    (hy : y = (none, []) ∨ y ∈ parts ∧ has c.heap varno' y = true) (hxy : x ≠ y) :
    c.heap.contents x.2 ≠ c.heap.contents y.2 := by
  intro heq
  rcases hx with rfl | ⟨hx, hhas⟩
  · rcases hy with rfl | ⟨_, hhas'⟩
    · exact hxy rfl
    · rw [has, ← heq] at hhas'
      simp [Heap.contents] at hhas'
  · have hhas' : has c.heap varno y = true := by rw [has, ← heq, ← has, hhas]
    rcases hy with rfl | ⟨hy, _⟩
    · simp [has, Heap.contents] at hhas'
    · exact hxy (s.eq_of_has hy hx hhas' hhas)

/-- A list is added to the components. -/
theorem addCompo (s : Shows c ctx as parts) {heap : Heap Nat} {r : ListPtr} {cells : List Nat}
    (hapart : heap.Apart ((r, cells) :: (c.composanteConnexeSubLevel, as) :: parts))
    (hsame : ∀ x ∈ (c.composanteConnexeSubLevel, as) :: parts,
      heap.contents x.2 = c.heap.contents x.2)
    (hdisj : ∀ x ∈ parts, (c.heap.contents x.2).Disjoint (heap.contents cells)) :
    Shows { c with heap, listComposantesConnexes := c.listComposantesConnexes ++ [r] }
      { ctx with
        listComposantesConnexes := ctx.listComposantesConnexes ++ [heap.contents cells] }
      as (parts ++ [(r, cells)]) := by
  rw [List.forall_mem_cons] at hsame
  refine ⟨hapart.subperm ?_, ?_, ?_, hsame.1.trans s.subLevel, ?_, s.varnoEnCours, s.varSub⟩
  · exact (List.perm_append_singleton _ (_ :: parts)).subperm
  · rw [List.map_append, s.pointers]
    rfl
  · rw [List.map_append, ← s.components, List.map_congr_left hsame.2]
    rfl
  · refine List.pairwise_append.mpr ⟨?_, List.pairwise_singleton _ _, fun x hx y hy => ?_⟩
    · have hdistinct := s.distinct_filter hsame.2 (fun _ => true)
      rwa [List.filter_true] at hdistinct
    · rw [List.mem_singleton.mp hy, hsame.2 x hx]
      exact hdisj x hx

/-- A component that is left has no table in common with one that was found. -/
theorem disjoint_found (s : Shows c ctx as parts) {x z : ListPtr × List Nat}
    (hx : x = (none, []) ∨ x ∈ parts ∧ has c.heap varno x = true) (hz : z ∈ parts)
    (hnot : has c.heap varno z = false) :
    (c.heap.contents z.2).Disjoint (c.heap.contents x.2) := by
  rcases hx with rfl | ⟨hx, hhas⟩
  · exact List.disjoint_nil_right _
  · refine s.disjoint hz hx ?_
    rintro rfl
    exact Bool.false_ne_true (hnot.symm.trans hhas)

theorem join (s : Shows c ctx as parts) {varno' : Nat} (hsub : ctx.isSub varno = false)
    (hsub' : ctx.isSub varno' = false) :
    ∃ c' as' parts', c.join varno varno' = some c' ∧
      Shows c' (ctx.join varno varno') as' parts' := by
  obtain ⟨x, hreturn, hvalue, hx, _⟩ := s.returnList hsub
  obtain ⟨y, hreturn', hvalue', hy, _⟩ := s.returnList hsub'
  by_cases hxy : x = y
  · subst hxy
    refine ⟨c, as, parts, by simp [ContextExists.join, hreturn, hreturn'], ?_⟩
    rw [Exist.ContextExists.join, if_pos (hvalue.trans hvalue'.symm)]
    exact s
  · have hpointers : x.1 ≠ y.1 := fun h => hxy ((s.apart.subperm
      (List.sublist_cons_self _ _).subperm).null.eq_of_ptr
        (List.mem_cons.mpr (hx.imp_right And.left)) (List.mem_cons.mpr (hy.imp_right And.left)) h)
    obtain ⟨c1, hremove, hheap, hlevel, s1⟩ := s.removeFromList varno
    obtain ⟨c2, hremove', hheap', hlevel', s2⟩ := s1.removeFromList varno'
    rw [hheap] at hheap'
    rw [hlevel] at hlevel'
    rw [hheap, List.filter_filter] at s2
    generalize hleft : parts.filter _ = left at s2
    have hmem : ∀ z ∈ left, z ∈ parts ∧ has c.heap varno z = false ∧
        has c.heap varno' z = false := by
      intro z hz
      rw [← hleft, List.mem_filter] at hz
      obtain ⟨hz, hnot⟩ := hz
      simp only [Bool.and_eq_true, Bool.not_eq_true'] at hnot
      exact ⟨hz, hnot.2, hnot.1⟩
    have hfamily : c.heap.Apart (x :: y :: (c.composanteConnexeSubLevel, as) :: left) := by
      have hsubperm : ([x, y] ++ left).Subperm ((none, []) :: parts) := by
        rw [← hleft]
        refine Heap.subperm_filter (by simpa using hxy) (List.forall_mem_cons.mpr
          ⟨hx.imp_right fun h => ⟨h.1, by simp [h.2]⟩, List.forall_mem_singleton.mpr
            (hy.imp_right fun h => ⟨h.1, by simp [h.2]⟩)⟩)
      have hmiddle : ([x, y] ++ (c.composanteConnexeSubLevel, as) :: left).Perm
          ((c.composanteConnexeSubLevel, as) :: ([x, y] ++ left)) := List.perm_middle
      refine s.apart.null.subperm (List.Subperm.trans ?_ (List.Perm.swap _ _ _).subperm)
      exact hmiddle.subperm.trans ((List.subperm_cons _).mpr hsubperm)
    obtain ⟨heap, hrun, hapart, _, hcontents⟩ := hfamily.listConcat
    have hsame : ∀ z ∈ x :: y :: (c.composanteConnexeSubLevel, as) :: left,
        heap.contents z.2 = c.heap.contents z.2 := fun z hz =>
      hcontents z.2 (hfamily.holds z hz).lt
    obtain ⟨hsameX, hsame⟩ := List.forall_mem_cons.mp hsame
    obtain ⟨hsameY, hsame⟩ := List.forall_mem_cons.mp hsame
    have hboth : heap.contents (x.2 ++ y.2) = c.heap.contents x.2 ++ c.heap.contents y.2 := by
      rw [Heap.contents_append, hsameX, hsameY]
    rw [← hlevel'] at hapart hsame
    rw [← hheap'] at hsame
    have s3 := s2.addCompo hapart hsame fun z hz => by
      obtain ⟨hz, hnot, hnot'⟩ := hmem z hz
      rw [hheap', hboth]
      exact List.disjoint_append_right.mpr
        ⟨s.disjoint_found hx hz hnot, s.disjoint_found hy hz hnot'⟩
    rw [Exist.ContextExists.join, hvalue, hvalue', if_neg (s.contents_ne hx hy hxy), ← hboth]
    refine ⟨_, as, _, ?_, s3⟩
    simp only [ContextExists.join, hreturn, hreturn', hpointers, if_false, hremove, hremove',
      hheap', hrun, Option.bind_eq_bind, Option.bind_some]

/-! ### The walk on values -/

/-- The table that is kept in mind is not among those that an enclosing query restricts, unless the
context says so. -/
def Current (ctx : Exist.ContextExists) : Prop :=
  ∀ varno, ctx.varnoEnCours = some varno → ctx.varSub = false → ctx.isSub varno = false

theorem enterVar (s : Shows c ctx as parts) (hcurrent : Current ctx) (v : Var) :
    ∃ c' as' parts', c.enterVar v = some c' ∧ Shows c' (ctx.enterVar v) as' parts' := by
  unfold ContextExists.enterVar Exist.ContextExists.enterVar
  rw [s.varnoEnCours]
  cases hcours : ctx.varnoEnCours with
  | none =>
    refine ⟨{ c with varnoEnCours := some v.varno,
                     varSub := c.varSub || (v.varlevelsup > 0 || ctx.isSub v.varno) },
      as, parts, ?_, s.apart, s.pointers, s.components, s.subLevel, s.distinct, rfl, ?_⟩
    · by_cases hlevel : v.varlevelsup > 0 <;> simp [hlevel, s.isSub]
    · rw [s.varSub]
  | some varno =>
    simp only [s.isSub, s.varSub, Option.bind_eq_bind, Option.bind_some]
    by_cases hstay : (ctx.varSub && (ctx.isSub v.varno || v.varlevelsup > 0)) = true
    · rw [if_pos hstay, if_pos hstay]
      exact ⟨c, as, parts, rfl, s⟩
    · rw [if_neg hstay, if_neg hstay]
      by_cases hsecond : (ctx.varSub && !ctx.isSub v.varno && v.varlevelsup == 0) = true
      · rw [if_pos hsecond, if_pos hsecond]
        simp only [Bool.and_eq_true, Bool.not_eq_true'] at hsecond
        exact s.toSubLevel hsecond.1.2
      · rw [if_neg hsecond, if_neg hsecond]
        have hvarSub : ctx.varSub = false := by
          cases hsub : ctx.varSub with
          | false => rfl
          | true =>
            rw [hsub] at hstay hsecond
            simp at hstay hsecond
            exact absurd hstay.2 (hsecond hstay.1)
        by_cases hfirst : (ctx.isSub v.varno || v.varlevelsup > 0) = true
        · rw [if_pos hfirst, if_pos hfirst]
          exact s.toSubLevel (hcurrent varno hcours hvarSub)
        · rw [if_neg hfirst, if_neg hfirst]
          simp only [Bool.or_eq_true, not_or, Bool.not_eq_true] at hfirst
          exact s.join (hcurrent varno hcours hvarSub) hfirst.1

/-- A list is never concatenated with itself. -/
theorem toSubLevel_raises (s : Shows c ctx as parts) (hsub : ctx.isSub varno = true)
    (hout : ∀ compo ∈ ctx.listComposantesConnexes, varno ∉ compo) :
    c.toSubLevel varno = none := by
  have hnone : parts.find? (has c.heap varno) = none := by
    refine List.find?_eq_none.mpr fun x hx hhas => ?_
    exact hout _ (s.components ▸ List.mem_map_of_mem hx) (List.contains_iff_mem.mp hhas)
  have hfind := findCompo_eq varno s.holds
  rw [s.pointers, hnone] at hfind
  have hreturn : c.returnList varno = some c.composanteConnexeSubLevel := by
    simp [ContextExists.returnList, hfind, s.isSub, hsub]
  have hholds : c.heap.Holds c.composanteConnexeSubLevel as := s.apart.holds _ List.mem_cons_self
  cases hlevel : c.composanteConnexeSubLevel with
  | none =>
    rw [hlevel] at hholds
    cases hholds
    rw [Exist.ContextExists.isSub, ← s.subLevel] at hsub
    simp [Heap.contents] at hsub
  | some p =>
    rw [hlevel] at hreturn
    simp [ContextExists.toSubLevel, hreturn, hlevel, Heap.listConcat]

/-- The table that is kept in mind is among those that are restricted, and the next column would
put it there again. -/
theorem enterVar_raises (s : Shows c ctx as parts) (hvarno : ctx.varnoEnCours = some varno)
    (hvarSub : ctx.varSub = false) (hsub : ctx.isSub varno = true)
    (hout : ∀ compo ∈ ctx.listComposantesConnexes, varno ∉ compo) {w : Var}
    (hw : 0 < w.varlevelsup ∨ ctx.isSub w.varno = true) : c.enterVar w = none := by
  have hrestricted : (ctx.isSub w.varno || decide (w.varlevelsup > 0)) = true := by
    rcases hw with hw | hw <;> simp [hw]
  rw [ContextExists.enterVar, s.varnoEnCours, hvarno]
  simp only [s.isSub, s.varSub, hvarSub, Option.bind_eq_bind, Option.bind_some, Bool.false_and,
    if_pos hrestricted]
  exact s.toSubLevel_raises hsub hout

theorem mem_returnList {ctx : Exist.ContextExists}
    (hin : varno ∈ ctx.listComposantesConnexes.flatten) : varno ∈ ctx.returnList varno := by
  obtain ⟨compo, hcompo, hmem⟩ := List.mem_flatten.mp hin
  cases hfind : ctx.listComposantesConnexes.find? (·.contains varno) with
  | none => exact absurd (List.contains_iff_mem.mpr hmem) (List.find?_eq_none.mp hfind compo hcompo)
  | some compo' =>
    have hhas := List.find?_some hfind
    rw [Exist.ContextExists.returnList, hfind]
    exact List.contains_iff_mem.mp hhas

/-- A column of an enclosing query right after one of the query puts the table of the latter among
those that are restricted. -/
theorem enterVar_outer {ctx : Exist.ContextExists} (hidle : Idle ctx) {x o : Var}
    (hx : x.varlevelsup = 0) (hfree : ctx.isSub x.varno = false) (ho : 0 < o.varlevelsup) :
    (ctx.enterVar x).enterVar o =
      ({ ctx with varnoEnCours := some x.varno } : Exist.ContextExists).toSubLevel x.varno := by
  have hfirst : ctx.enterVar x = { ctx with varnoEnCours := some x.varno } := by
    rw [enterVar_first hidle, hx, hfree]
    simp [hidle.varSub]
  rw [hfirst]
  simp [Exist.ContextExists.enterVar, ho, hidle.varSub]

/-- The next column, of an enclosing query or of that table, is an error. -/
theorem raises (s : Shows c ctx as parts) (hidle : Idle ctx) {x o w : Var}
    (hx : x.varlevelsup = 0) (hfree : ctx.isSub x.varno = false)
    (hin : x.varno ∈ ctx.listComposantesConnexes.flatten) (ho : 0 < o.varlevelsup)
    (hw : 0 < w.varlevelsup ∨ w.varno = x.varno) :
    ((c.enterVar x).bind (·.enterVar o)).bind (·.enterVar w) = none := by
  have hidle' : Current ctx := fun varno hvarno => by
    rw [hidle.varnoEnCours] at hvarno
    cases hvarno
  have hone : Current (ctx.enterVar x) := fun varno hvarno _ => by
    rw [enterVar_first hidle] at hvarno ⊢
    cases hvarno
    exact hfree
  obtain ⟨c1, as1, parts1, hrun1, s1⟩ := s.enterVar hidle' x
  obtain ⟨c2, as2, parts2, hrun2, s2⟩ := s1.enterVar hone o
  rw [enterVar_outer hidle hx hfree ho] at s2
  have hsub : (({ ctx with varnoEnCours := some x.varno } : Exist.ContextExists).toSubLevel
      x.varno).isSub x.varno = true :=
    List.contains_iff_mem.mpr (List.mem_append_right _ (mem_returnList hin))
  rw [hrun1, Option.bind_some, hrun2, Option.bind_some]
  refine s2.enterVar_raises rfl hidle.varSub hsub (fun compo hcompo hmem => ?_)
    (hw.imp_right fun h => ?_)
  · have hnot := (List.mem_filter.mp hcompo).2
    simp [hmem] at hnot
  · rw [h]
    exact hsub

theorem forget (s : Shows c ctx as parts) : Shows c.forget ctx.forget as parts :=
  ⟨s.apart, s.pointers, s.components, s.subLevel, s.distinct, rfl, rfl⟩

end Shows

/-! ### What the walk meets -/

mutual

/-- The columns of a condition in the order of the walk, and `none` where an operator ends. -/
def encounters : Node α → List (Option Var)
  | .var v => [some v]
  | .opExpr _ args => encountersList args ++ [none]
  | .boolExpr _ args => encountersList args
  | .nullTest _ arg => encounters arg
  | .subLink _ testexpr subselect => encounters testexpr ++ encounters subselect
  | .targetEntry expr _ => encounters expr
  | .list elems => encountersList elems
  | _ => []

def encountersList : List (Node α) → List (Option Var)
  | [] => []
  | node :: nodes => encounters node ++ encountersList nodes

end

/-- A walker that does something at a column and where an operator ends, and goes on elsewhere. -/
structure Follows {σ : Type} (f : Walker α σ) (read : σ → Option Var → σ) : Prop where
  null : ∀ rest s, f .null rest s = (false, s)
  var : ∀ v rest s, f (.var v) rest s = (false, read s (some v))
  opExpr : ∀ opno args rest s, f (.opExpr opno args) rest s = ((rest s).1, read (rest s).2 none)
  other : ∀ node rest s, node ≠ .null → (∀ v, node ≠ .var v) → (∀ opno args,
    node ≠ .opExpr opno args) → f node rest s = rest s

namespace Follows

variable {σ : Type} {f : Walker α σ} {read : σ → Option Var → σ}

mutual

theorem walk_eq (hf : Follows f read) : ∀ (node : Node α) (s : σ),
    walk f node s = (false, (encounters node).foldl read s)
  | .null, s => hf.null _ s
  | .var v, s => hf.var v _ s
  | .opExpr opno args, s => by
    rw [walk, hf.opExpr, walkList_eq hf args s, encounters, List.foldl_append]
    rfl
  | .boolExpr boolop args, s => by
    rw [walk, hf.other _ _ _ (by simp) (by simp) (by simp), walkList_eq hf args s, encounters]
  | .nullTest test arg, s => by
    rw [walk, hf.other _ _ _ (by simp) (by simp) (by simp), walk_eq hf arg s, encounters]
  | .subLink kind testexpr subselect, s => by
    rw [walk, hf.other _ _ _ (by simp) (by simp) (by simp), walk_eq hf testexpr s, encounters,
      List.foldl_append]
    exact walk_eq hf subselect _
  | .targetEntry expr resno, s => by
    rw [walk, hf.other _ _ _ (by simp) (by simp) (by simp), walk_eq hf expr s, encounters]
  | .list elems, s => by
    rw [walk, hf.other _ _ _ (by simp) (by simp) (by simp), walkList_eq hf elems s, encounters]
  | .const _, s | .param _, s | .query _ _ _ _, s | .rangeTblEntry _ _ _, s =>
    hf.other _ _ s (by simp) (by simp) (by simp)

theorem walkList_eq (hf : Follows f read) : ∀ (nodes : List (Node α)) (s : σ),
    walkList f nodes s = (false, (encountersList nodes).foldl read s)
  | [], _ => rfl
  | node :: nodes, s => by
    rw [walkList, walk_eq hf node s, encountersList, List.foldl_append]
    exact walkList_eq hf nodes _

end

end Follows

theorem follows_createConnexe :
    Follows (Exist.createConnexe (α := α)) Exist.ContextExists.read := by
  refine ⟨fun _ _ => rfl, fun _ _ _ => rfl, fun _ _ _ _ => rfl, ?_⟩
  intro node rest s hnull hvar hop
  cases node with
  | null => exact absurd rfl hnull
  | var v => exact absurd rfl (hvar v)
  | opExpr opno args => exact absurd rfl (hop opno args)
  | _ => rfl

/-- What the walk does at a column or at the end of an operator. -/
def read (ctx : Option ContextExists) : Option Var → Option ContextExists
  | some v => ctx.bind (·.enterVar v)
  | none => ctx.map .forget

theorem follows_cells : Follows (createConnexe (α := α)) read := by
  refine ⟨fun _ _ => rfl, fun _ _ _ => rfl, fun _ _ _ _ => rfl, ?_⟩
  intro node rest s hnull hvar hop
  cases node with
  | null => exact absurd rfl hnull
  | var v => exact absurd rfl (hvar v)
  | opExpr opno args => exact absurd rfl (hop opno args)
  | _ => rfl

/-! ### Runs of columns -/

/-- The columns since an operator ended: none, a run that a column of an enclosing query begins, one
column of the query, or two. -/
inductive Pending where
  | nothing
  | outer
  | one
  | two
  deriving DecidableEq

def Pending.next : Pending → Option Var → Option Pending
  | _, none => some .nothing
  | .nothing, some v => some (if v.varlevelsup > 0 then .outer else .one)
  | .outer, some _ => some .outer
  | .one, some _ => some .two
  | .two, some _ => none

/-- No run of three columns begins with a column of the query itself. -/
def orderly (l : List (Option Var)) : Bool := (l.foldlM Pending.next .nothing).isSome

/-- What is in the context after such columns. -/
def Pending.Fits : Pending → Exist.ContextExists → Prop
  | .nothing, ctx => Idle ctx
  | .outer, ctx => ctx.varnoEnCours.isSome ∧ ctx.varSub = true
  | .one, ctx => ctx.varnoEnCours.isSome ∧ Shows.Current ctx
  | .two, _ => True

/-- Past the first column of a run, only the lists change. -/
theorem enterVar_keeps {ctx : Exist.ContextExists} (h : ctx.varnoEnCours.isSome) (v : Var) :
    (ctx.enterVar v).varnoEnCours = ctx.varnoEnCours ∧ (ctx.enterVar v).varSub = ctx.varSub := by
  obtain ⟨varno, hvarno⟩ := Option.isSome_iff_exists.mp h
  simp only [Exist.ContextExists.enterVar, hvarno]
  split
  · exact ⟨hvarno, rfl⟩
  · split
    · exact ⟨hvarno, rfl⟩
    · split
      · exact ⟨hvarno, rfl⟩
      · unfold Exist.ContextExists.join
        dsimp only
        split
        · exact ⟨hvarno, rfl⟩
        · exact ⟨hvarno, rfl⟩

namespace Pending

variable {p p' : Pending} {ctx : Exist.ContextExists}

theorem Fits.current {v : Var} (h : p.Fits ctx) (hnext : p.next (some v) = some p') :
    Shows.Current ctx := by
  cases p with
  | nothing =>
    intro varno hvarno
    rw [h.varnoEnCours] at hvarno
    cases hvarno
  | outer =>
    intro varno _ hfalse
    rw [h.2] at hfalse
    cases hfalse
  | one => exact h.2
  | two => cases hnext

theorem Fits.read {e : Option Var} (h : p.Fits ctx) (hnext : p.next e = some p') :
    p'.Fits (ctx.read e) := by
  cases e with
  | none =>
    cases p <;> cases hnext <;> exact ⟨rfl, rfl⟩
  | some v =>
    cases p with
    | nothing =>
      have hfirst : ctx.read (some v) = _ := enterVar_first h v
      simp only [next, Option.some.injEq] at hnext
      subst hnext
      rw [hfirst]
      split
      · next hlevel => exact ⟨rfl, by simp [hlevel]⟩
      · refine ⟨rfl, fun varno hvarno hfalse => ?_⟩
        cases hvarno
        exact (Bool.or_eq_false_iff.mp hfalse).2
    | outer =>
      cases hnext
      obtain ⟨hvarno, hsub⟩ := enterVar_keeps h.1 v
      exact ⟨hvarno ▸ h.1, hsub.trans h.2⟩
    | one =>
      cases hnext
      trivial
    | two => cases hnext

/-- Along such runs, the lists show the values. -/
theorem Fits.run {l : List (Option Var)} (h : p.Fits ctx) (hl : l.foldlM next p = some p')
    {c : ContextExists} {as : List Nat} {parts : List (ListPtr × List Nat)}
    (s : Shows c ctx as parts) :
    ∃ c' as' parts', l.foldl Cells.read (some c) = some c' ∧
      Shows c' (l.foldl .read ctx) as' parts' ∧ p'.Fits (l.foldl .read ctx) := by
  induction l generalizing p ctx c as parts with
  | nil =>
    cases hl
    exact ⟨c, as, parts, rfl, s, h⟩
  | cons e l ih =>
    rw [List.foldlM_cons] at hl
    obtain ⟨p1, hnext, hl⟩ := Option.bind_eq_some_iff.mp hl
    obtain ⟨c1, as1, parts1, hread, s1⟩ : ∃ c1 as1 parts1, Cells.read (some c) e = some c1 ∧
        Shows c1 (ctx.read e) as1 parts1 := by
      cases e with
      | none => exact ⟨_, as, parts, rfl, s.forget⟩
      | some v => exact s.enterVar (h.current hnext) v
    rw [List.foldl_cons, List.foldl_cons, hread]
    exact ih (h.read hnext) hl s1

end Pending

/-! ### The start -/

theorem shows_addVarno {c : ContextExists} {ctx : Exist.ContextExists} {as : List Nat}
    {parts : List (ListPtr × List Nat)} (s : Shows c ctx as parts) {ns : List Nat}
    (hns : ns.Nodup) (hnew : ∀ i ∈ ns, ∀ compo ∈ ctx.listComposantesConnexes, i ∉ compo) :
    ∃ c' parts', ns.foldlM addVarno c = some c' ∧ Shows c' { ctx with
      listComposantesConnexes := ctx.listComposantesConnexes ++ ns.map ([·]) } as parts' := by
  induction ns generalizing c ctx parts with
  | nil => exact ⟨c, parts, rfl, by simpa using s⟩
  | cons i ns ih =>
    rw [List.forall_mem_cons] at hnew
    rw [List.nodup_cons] at hns
    obtain ⟨heap, p, hrun, hapart, hdatum, hsame⟩ := s.apart.lappend i
    have s1 := s.addCompo hapart hsame fun x hx => by
      rw [hdatum, List.disjoint_singleton]
      exact hnew.1 _ (s.components ▸ List.mem_map_of_mem hx)
    rw [hdatum] at s1
    obtain ⟨c', parts', hruns, s'⟩ := ih s1 hns.2 (by
      intro j hj compo hcompo
      rcases List.mem_append.mp hcompo with hcompo | hcompo
      · exact hnew.2 j hj compo hcompo
      · rw [List.mem_singleton.mp hcompo, List.mem_singleton]
        rintro rfl
        exact hns.1 hj)
    refine ⟨c', parts', ?_, by simpa using s'⟩
    rw [List.foldlM_cons]
    simp only [addVarno, hrun, Option.bind_eq_bind, Option.bind_some]
    exact hruns

theorem shows_make (n : Nat) : ∃ c as parts, makeContextExists n = some c ∧
    Shows c (Exist.makeContextExists n) as parts := by
  have s : Shows ⟨.empty, none, [], none, false⟩ ⟨[], [], none, false⟩ [] [] :=
    ⟨⟨by simp [Heap.Holds], by simp⟩, rfl, rfl, rfl, .nil, rfl, rfl⟩
  obtain ⟨c, parts, hrun, s'⟩ := shows_addVarno s (List.nodup_range' (s := 1) (n := n)) (by simp)
  exact ⟨c, [], parts, hrun, s'⟩

/-! ### The whole walk -/

theorem mapM_foreach {heap : Heap Nat} {parts : List (ListPtr × List Nat)}
    (h : ∀ x ∈ parts, heap.Holds x.1 x.2) :
    (parts.map Prod.fst).mapM heap.foreach = some (parts.map fun x => heap.contents x.2) := by
  induction parts with
  | nil => rfl
  | cons x parts ih =>
    rw [List.forall_mem_cons] at h
    simp [List.mapM_cons, h.1.foreach, ih h.2]

theorem Shows.components_foreach {c : ContextExists} {v : Exist.ContextExists} {as : List Nat}
    {parts : List (ListPtr × List Nat)} (s : Shows c v as parts) :
    c.listComposantesConnexes.mapM c.heap.foreach = some v.listComposantesConnexes := by
  rw [← s.components, ← s.pointers]
  exact mapM_foreach s.holds

theorem shows_walk (n : Nat) {quals : Node α} (h : orderly (encounters quals) = true) :
    ∃ c as parts, (walk createConnexe quals (makeContextExists n)).2 = some c ∧
      Shows c (walk Exist.createConnexe quals (Exist.makeContextExists n)).2 as parts := by
  obtain ⟨p, hp⟩ := Option.isSome_iff_exists.mp h
  obtain ⟨c, as, parts, hmake, s⟩ := shows_make n
  have hidle : Pending.Fits .nothing (Exist.makeContextExists n) := ⟨rfl, rfl⟩
  obtain ⟨c', as', parts', hrun, s', _⟩ := hidle.run hp s
  rw [follows_cells.walk_eq, follows_createConnexe.walk_eq, hmake]
  exact ⟨c', as', parts', hrun, s'⟩

/-- If no run of three columns begins with a column of the query itself, `create_connexe` returns,
and its lists have the tables that they have on values. -/
theorem createConnexe_lists (n : Nat) (quals : Node α) (h : orderly (encounters quals) = true) :
    ∃ c, (walk createConnexe quals (makeContextExists n)).2 = some c ∧
      c.heap.foreach c.composanteConnexeSubLevel = some
        (walk Exist.createConnexe quals (Exist.makeContextExists n)).2.composanteConnexeSubLevel ∧
      c.listComposantesConnexes.mapM c.heap.foreach = some
        (walk Exist.createConnexe quals (Exist.makeContextExists n)).2.listComposantesConnexes := by
  obtain ⟨c, as, parts, hrun, s⟩ := shows_walk n h
  refine ⟨c, hrun, ?_, s.components_foreach⟩
  rw [← s.subLevel]
  exact (s.apart.holds _ List.mem_cons_self).foreach

/-- `r.a = o.a AND NOT (r.b = s.b)` over three tables: `r` and `s` are in one chain of cells. -/
theorem createConnexe_lists_chain :
    ∃ c, (walk createConnexe chain (makeContextExists 3)).2 = some c ∧
      c.heap.foreach c.composanteConnexeSubLevel = some [1, 2] ∧
      c.listComposantesConnexes.mapM c.heap.foreach = some [[3]] :=
  createConnexe_lists 3 chain rfl

theorem foldl_read_none (l : List (Option Var)) : l.foldl read none = none := by
  induction l with
  | nil => rfl
  | cons e l ih =>
    rw [List.foldl_cons]
    cases e with
    | none => exact ih
    | some v => exact ih

/-- A run of three columns, the first of a table of the query that is not restricted so far, the
second of an enclosing query, and the third of an enclosing query or that table again: the walk ends
with an error. -/
theorem createConnexe_raises {n : Nat} {quals : Node α} {pre post : List (Option Var)} {x o w : Var}
    (h : encounters quals = pre ++ some x :: some o :: some w :: post)
    (hpre : pre.foldlM Pending.next .nothing = some .nothing) (hx : x.varlevelsup = 0)
    (hfree : (pre.foldl .read (Exist.makeContextExists n)).isSub x.varno = false)
    (hin : x.varno ∈ (pre.foldl .read (Exist.makeContextExists n)).listComposantesConnexes.flatten)
    (ho : 0 < o.varlevelsup) (hw : 0 < w.varlevelsup ∨ w.varno = x.varno) :
    (walk createConnexe quals (makeContextExists n)).2 = none := by
  obtain ⟨c, as, parts, hmake, s⟩ := shows_make n
  have hstart : Pending.Fits .nothing (Exist.makeContextExists n) := ⟨rfl, rfl⟩
  obtain ⟨c', as', parts', hrun, s', hidle⟩ := hstart.run hpre s
  have hraises := s'.raises hidle hx hfree hin ho hw
  rw [follows_cells.walk_eq, hmake, h, List.foldl_append, hrun]
  have hthree : (some x :: some o :: some w :: post).foldl read (some c') =
      post.foldl read (((c'.enterVar x).bind (·.enterVar o)).bind (·.enterVar w)) := rfl
  rw [hthree, hraises, foldl_read_none]

end Infed.Exist.Cells
