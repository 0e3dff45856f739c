import Infed.Mutate
import Infed.Translate
import Infed.Walk

/-! A whole run: `my_walker` on a query, `make_context_modifier`, and `my_mutator` on the query.
The walker leaves the mutator a scope for each query and a pair of sets for each AND/OR node, made
of columns that occur in the query. -/

namespace Infed

open CellList

variable {α : Type} {cat : Catalog}

theorem mapM_foreach {h : Heap TrueVar} (hO : h.Ordered) : ∀ {ls : List ListPtr},
    (∀ l ∈ ls, h.From 0 0 l) → ∃ sets, ls.mapM h.foreach = some sets ∧ sets.length = ls.length ∧
      ∀ e ∈ sets, ∀ t ∈ e, t ∈ h.data
  | [], _ => ⟨[], rfl, rfl, by simp⟩
  | l :: ls, hls => by
    obtain ⟨e, he⟩ := hO.foreach (hls l List.mem_cons_self)
    obtain ⟨sets, hsets, hlen, hmem⟩ := mapM_foreach hO
      fun m hm => hls m (List.mem_cons_of_mem _ hm)
    refine ⟨e :: sets, by simp [he, hsets], by simp [hlen], ?_⟩
    rintro f hf t ht
    rcases List.mem_cons.mp hf with rfl | hf
    · exact Heap.mem_data_of_foreach he t ht
    · exact hmem f hf t ht

/-- The context of the mutator made from what a walk over the query `q` left in `w`, when the walker
came to the columns `seen`. -/
structure Starts (cat : Catalog) (q : Node α) (seen : List TrueVar) (positive : Bool)
    (w : ContextWalkerSetConstraint) (c : ContextModifier α) : Prop where
  positive : c.positive = positive
  ready : c.ready = false
  checks : c.constraintToAdd = []
  trueVars : c.trueVars = queryScopes cat q .root 0
  known : c.listOfNotNullInCurrent = w.listOfNotNullAttSchem
  atStart : AtPart (fun e => ∀ t ∈ e, t ∈ seen) (queryScopes cat q .root 0) (boolCount q) c
  lengthTrue : c.listListTrue.length = boolCount q
  lengthFalse : c.listListFalse.length = boolCount q
  whereIAm : c.whereIAm = 0
  whereIAmQuerry : c.whereIAmQuerry = 0

theorem Walked.starts {targetList rtable : List (Node α)} {fromlist : List Nat} {quals : Node α}
    {seen : List TrueVar} {rtes N : Nat} {w : ContextWalkerSetConstraint}
    (walked : Walked cat 0 (queryScopes cat (.query targetList rtable fromlist quals) .root 0) rtes
      (boolCount (.query targetList rtable fromlist quals)) seen makeContextWalkerSetConstraint w)
    (inv : WalkInv N 0 w) (positive : Bool) :
    ∃ c : ContextModifier α, makeContextModifier positive w = some c ∧
      Starts cat (.query targetList rtable fromlist quals) seen positive w c := by
  have htv : w.trueVars = queryScopes cat (.query targetList rtable fromlist quals) .root 0 := by
    rw [walked.trueVars]
    rfl
  obtain ⟨newT, hnewT, hlenT⟩ := walked.entriesTrue
  obtain ⟨newF, hnewF, hlenF⟩ := walked.entriesFalse
  have hT : w.listListTrue.length = boolCount (.query targetList rtable fromlist quals) := by
    rw [hnewT, List.length_append, hlenT]
    simp [makeContextWalkerSetConstraint]
  have hF : w.listListFalse.length = boolCount (.query targetList rtable fromlist quals) := by
    rw [hnewF, List.length_append, hlenF]
    simp [makeContextWalkerSetConstraint]
  have hdata : ∀ t ∈ w.heap.data, t ∈ seen := fun t ht =>
    (walked.data t ht).resolve_left (by simp [makeContextWalkerSetConstraint, Heap.empty,
      Heap.data])
  obtain ⟨setsT, hsetsT, hlT, hmemT⟩ := mapM_foreach inv.ordered inv.entriesTrue
  obtain ⟨setsF, hsetsF, hlF, hmemF⟩ := mapM_foreach inv.ordered inv.entriesFalse
  obtain ⟨scope, rest, hcons⟩ : ∃ scope rest,
      queryScopes cat (.query targetList rtable fromlist quals) .root 0 = scope :: rest :=
    ⟨_, _, by rw [queryScopes]⟩
  have hmake : makeContextModifier positive w = some {
      positive, ready := false, constraintToAdd := ([] : List (Node α)), trueVars := w.trueVars
      currentTrueVar := scope, listOfNotNullInCurrent := w.listOfNotNullAttSchem
      listListTrue := setsT, listListFalse := setsF, whereIAm := 0, whereIAmQuerry := 0 } := by
    simp [makeContextModifier, htv, hcons, listNth, hsetsT, hsetsF]
  exact ⟨_, hmake, rfl, rfl, rfl, htv, rfl, ⟨⟨[], by simp [htv]⟩, by simp; omega,
    by simp; omega, fun e he t ht => hdata t (hmemT e he t ht),
    fun e he t ht => hdata t (hmemF e he t ht)⟩, by simp; omega, by simp; omega, rfl, rfl⟩

/-- What the walker leaves for the mutator after the query `q`. -/
structure Prepared (cat : Catalog) (q : Node α) (positive : Bool) (c : ContextModifier α) :
    Prop where
  positive : c.positive = positive
  ready : c.ready = false
  checks : c.constraintToAdd = []
  trueVars : c.trueVars = queryScopes cat q .root 0
  schema : ∀ t ∈ c.listOfNotNullInCurrent, cat.attnotnull t.vartype t.varattno = true
  atStart : AtPart (fun e => ∀ t ∈ e, t ∈ seenVars cat q .root 0) (queryScopes cat q .root 0)
    (boolCount q) c
  lengthTrue : c.listListTrue.length = boolCount q
  whereIAm : c.whereIAm = 0
  whereIAmQuerry : c.whereIAmQuerry = 0

/-- The walker returns on every query of the fragment, and the mutator's context can be made from
what it recorded. -/
theorem Pass.prepares (P : Pass α) {freeNot : Prop} (targetList : List (Node α))
    {relids : List Oid} {quals : Node α} (h : Cond (Atom cat) freeNot [relids] quals) :
    ∃ w, P.myWalker cat (selectFrom targetList relids quals) makeContextWalkerSetConstraint =
        some w ∧
      ∀ positive, ∃ c, makeContextModifier positive w = some c ∧
        Prepared cat (selectFrom targetList relids quals) positive c := by
  have hwalks : P.Walks cat [] (selectFrom targetList relids quals) :=
    P.walks_selectFrom (P.walks_cond h)
  obtain ⟨w, hrun, walked, N, _, inv⟩ := hwalks 0 0 makeContextWalkerSetConstraint
    trivial walkInv_make
  refine ⟨w, hrun, fun positive => ?_⟩
  obtain ⟨c, hc, start⟩ := walked.starts inv positive
  refine ⟨c, hc, start.positive, start.ready, start.checks, start.trueVars, fun t ht => ?_,
    start.atStart, start.lengthTrue, start.whereIAm, start.whereIAmQuerry⟩
  rw [start.known] at ht
  exact (walked.schema t ht).resolve_left (by simp [makeContextWalkerSetConstraint])

/-! ### With nothing known -/

/-- The context with every not-null list empty. -/
def emptied (c : ContextModifier α) : ContextModifier α :=
  { c with
    listOfNotNullInCurrent := []
    listListTrue := c.listListTrue.map fun _ => []
    listListFalse := c.listListFalse.map fun _ => [] }

theorem AtPart.emptied {E : List TrueVar → Prop} {scopes : List Scope} {bools : Nat}
    {c : ContextModifier α} (h : AtPart E scopes bools c) :
    AtPart (· = []) scopes bools (emptied c) :=
  ⟨h.queries, by simpa [Infed.emptied] using h.bools, by simpa [Infed.emptied] using h.lengths,
    by simp [Infed.emptied], by simp [Infed.emptied]⟩

/-- The flags between comparisons. -/
def Neutral (ready : Bool) (checks : List (Node α)) : Prop := ready = false ∧ checks = []

section

variable {P : Pass α} {leaf : Bool → Node α → Node α} {atom : Scopes → Node α → Prop}

/-- If the mutator translates atoms by `leaf` and leaves its flags as they were, it translates
conditions. -/
theorem Pass.mutates_translate
    (hleaf : ∀ os a, atom os a → P.Mutates Neutral (· = []) (· = [])
      (fun p _ a out => out = translate leaf p a) cat os a)
    {freeNot : Prop} {os : Scopes} {a : Node α} (h : Cond atom freeNot os a) :
    P.Mutates Neutral (· = []) (· = []) (fun p _ a out => out = translate leaf p a) cat os a := by
  refine Pass.mutates_cond (fun k e hk he => by rw [hk, he]; rfl) hleaf (fun _ _ => rfl) ?_ ?_ ?_ h
  · intro boolop p k known args outs hop _ houts
    have hmap : outs = translateList leaf p args := by
      rw [translateList_eq_map]
      exact forall₂_iff_eq_map.mp houts
    cases boolop <;> first | exact absurd rfl hop | simp [translate, hmap]
  · rintro p k a out rfl
    simp [translate, translateList]
  · rintro p k targetList relids quals out rfl
    exact (translate_existsFrom leaf p targetList relids quals).symm

/-- The whole run on a query, with the lists that the walker recorded emptied. -/
theorem Pass.run_translate
    (hleaf : ∀ os a, atom os a → P.Mutates Neutral (· = []) (· = [])
      (fun p _ a out => out = translate leaf p a) cat os a)
    (hatom : ∀ os a, atom os a → Atom cat os a) (targetList : List (Node α)) {relids : List Oid}
    {quals : Node α} {freeNot : Prop} (h : Cond atom freeNot [relids] quals) :
    ∃ w c c',
      P.myWalker cat (selectFrom targetList relids quals) makeContextWalkerSetConstraint = some w ∧
      makeContextModifier true w = some c ∧
      P.myMutator (selectFrom targetList relids quals) (emptied c) =
        some (selectFrom targetList relids (translate leaf true quals), c') := by
  obtain ⟨w, hwalk, hmake⟩ := P.prepares targetList (h.mono hatom id)
  obtain ⟨c, hc, prep⟩ := hmake true
  have hat := prep.atStart.emptied
  rw [boolCount_selectFrom] at hat
  obtain ⟨out, r, ks, hrun, _, hout⟩ := Pass.myMutator_selectFrom (Pass.mutates_translate hleaf h)
    (Scope.resolves_root cat) hat ⟨prep.ready, prep.checks⟩ rfl
  rw [show (emptied c).positive = true from prep.positive] at hout
  exact ⟨w, c, _, hwalk, hc, hout ▸ hrun⟩

end

end Infed
