import Mathlib.Logic.Function.Basic

/-! Releasing memory with `pfree` and `list_free_deep`.  The state is the list of chunks released so
far; NULL is not a chunk, and a chunk is released once. -/

namespace Memory

variable {κ : Type} [DecidableEq κ]

/-- Release a chunk; `none` is an access to memory that is not allocated. -/
def pfree (freed : List κ) : Option κ → Option (List κ)
  | none => none
  | some chunk => if chunk ∈ freed then none else some (chunk :: freed)

/-- The loop of `list_free_deep` from the `i`-th cell on: each element, and then its cell. -/
def freeCells (cell : Nat → κ) : Nat → List (Option κ) → List κ → Option (List κ)
  | _, [], freed => some freed
  | i, elem :: elems, freed => do
    let freed ← pfree freed elem
    let freed ← pfree freed (some (cell i))
    freeCells cell (i + 1) elems freed

/-- Release the elements and the cells of a list, and its header.  `NIL` has no header. -/
def listFreeDeep (cell : Nat → κ) (header : κ) (elems : List (Option κ)) (freed : List κ) :
    Option (List κ) :=
  if elems.isEmpty then some freed
  else do
    let freed ← freeCells cell 0 elems freed
    pfree freed (some header)

variable {cell : Nat → κ} {header : κ} {freed : List κ}

theorem pfree_some {chunk : κ} (h : chunk ∉ freed) :
    pfree freed (some chunk) = some (chunk :: freed) :=
  if_neg h

/-! ### NULL -/

theorem freeCells_null {elems : List (Option κ)} (h : none ∈ elems) (i : Nat) (freed : List κ) :
    freeCells cell i elems freed = none := by
  induction elems generalizing i freed with
  | nil => cases h
  | cons elem elems ih =>
    cases elem with
    | none => rfl
    | some chunk =>
      have hrest : none ∈ elems := by simpa using h
      simp only [freeCells, Option.bind_eq_bind, Option.bind_eq_none_iff]
      exact fun _ _ _ _ => ih hrest _ _

/-- A list with a NULL in it cannot be released. -/
theorem listFreeDeep_null {elems : List (Option κ)} (h : none ∈ elems) (freed : List κ) :
    listFreeDeep cell header elems freed = none := by
  have hne : elems.isEmpty = false := by
    cases elems with
    | nil => cases h
    | cons => rfl
  simp [listFreeDeep, hne, freeCells_null h]

/-! ### Distinct chunks -/

/-- The elements, the cells and the header of a list are different chunks, none of them released. -/
structure Releasable (cell : Nat → κ) (header : κ) (chunks freed : List κ) : Prop where
  nodup : chunks.Nodup
  injective : Function.Injective cell
  elem_ne_cell : ∀ k ∈ chunks, ∀ i, k ≠ cell i
  elem_ne_header : ∀ k ∈ chunks, k ≠ header
  cell_ne_header : ∀ i, cell i ≠ header
  elem_fresh : ∀ k ∈ chunks, k ∉ freed
  cell_fresh : ∀ i, cell i ∉ freed
  header_fresh : header ∉ freed

theorem freeCells_returns {chunks : List κ} {i : Nat} (hnodup : chunks.Nodup)
    (hcell : Function.Injective cell) (hne : ∀ k ∈ chunks, ∀ i, k ≠ cell i)
    (helem : ∀ k ∈ chunks, k ∉ freed) (hfresh : ∀ j ≥ i, cell j ∉ freed) :
    ∃ freed', freeCells cell i (chunks.map some) freed = some freed' ∧
      ∀ k ∈ freed', k ∈ freed ∨ k ∈ chunks ∨ ∃ j, k = cell j := by
  induction chunks generalizing i freed with
  | nil => exact ⟨freed, rfl, fun k hk => .inl hk⟩
  | cons chunk chunks ih =>
    rw [List.forall_mem_cons] at hne helem
    obtain ⟨hnot, hnodup⟩ := List.nodup_cons.mp hnodup
    -- the element and its cell are released, which the rest of the list does not touch
    have hcelli : cell i ∉ chunk :: freed := by
      simp only [List.mem_cons, not_or]
      exact ⟨fun h => hne.1 i h.symm, hfresh i (Nat.le_refl i)⟩
    have helem' : ∀ k ∈ chunks, k ∉ cell i :: chunk :: freed := fun k hk => by
      simp only [List.mem_cons, not_or]
      exact ⟨hne.2 k hk i, fun h => hnot (h ▸ hk), helem.2 k hk⟩
    have hfresh' : ∀ j ≥ i + 1, cell j ∉ cell i :: chunk :: freed := fun j hj => by
      simp only [List.mem_cons, not_or]
      exact ⟨fun h => by have := hcell h; omega, fun h => hne.1 j h.symm, hfresh j (by omega)⟩
    obtain ⟨freed', hrun, hfreed'⟩ := ih hnodup hne.2 helem' hfresh'
    refine ⟨freed', ?_, fun k hk => ?_⟩
    · rw [List.map_cons, freeCells, pfree_some helem.1]
      simp only [Option.bind_eq_bind, Option.bind_some]
      rw [pfree_some hcelli]
      exact hrun
    · rcases hfreed' k hk with hk | hk | hk
      · rcases List.mem_cons.mp hk with rfl | hk
        · exact .inr (.inr ⟨i, rfl⟩)
        · rcases List.mem_cons.mp hk with rfl | hk
          · exact .inr (.inl List.mem_cons_self)
          · exact .inl hk
      · exact .inr (.inl (List.mem_cons_of_mem _ hk))
      · exact .inr (.inr hk)

/-- A list of distinct chunks is released. -/
theorem Releasable.returns {chunks : List κ} (h : Releasable cell header chunks freed) :
    ∃ freed', listFreeDeep cell header (chunks.map some) freed = some freed' ∧
      ∀ k ∈ freed', k ∈ freed ∨ k ∈ chunks ∨ (∃ i, k = cell i) ∨ k = header := by
  rw [listFreeDeep]
  split
  · exact ⟨freed, rfl, fun k hk => .inl hk⟩
  · obtain ⟨freed', hrun, hfreed'⟩ := freeCells_returns (i := 0) h.nodup h.injective
      h.elem_ne_cell h.elem_fresh fun j _ => h.cell_fresh j
    have hheader : header ∉ freed' := fun hmem => by
      rcases hfreed' _ hmem with hk | hk | ⟨i, hk⟩
      · exact h.header_fresh hk
      · exact h.elem_ne_header _ hk rfl
      · exact h.cell_ne_header i hk.symm
    refine ⟨header :: freed', by simp [hrun, pfree_some hheader], fun k hk => ?_⟩
    rcases List.mem_cons.mp hk with rfl | hk
    · exact .inr (.inr (.inr rfl))
    · rcases hfreed' k hk with hk | hk | hk
      · exact .inl hk
      · exact .inr (.inl hk)
      · exact .inr (.inr (.inl hk))

end Memory
