import Infed.Eval

/-! The combinations of FROM rows: what rows a combination holds, when there is one, and what a
condition on the rows of single tables does to the list of them. -/

namespace Infed

variable {α : Type} {D : Database α}

theorem combinations_cons (tables : List (List (Row α))) (i : Nat) (fromlist : List Nat) :
    combinations tables (i :: fromlist) = (combinations tables fromlist).flatMap fun z =>
      (tables.getD (i - 1) []).map fun r => (i, r) :: z := by
  simp only [combinations, List.map_cons, List.sections, List.map_map, Function.comp_def]

theorem combinations_one (rows : List (Row α)) :
    combinations [rows] [1] = rows.map fun r => [(1, r)] := by
  simp [combinations_cons]
  simp [combinations]

theorem map_fst_combination {tables : List (List (Row α))} {fromlist : List Nat} :
    ∀ {z : List (Nat × Row α)}, z ∈ combinations tables fromlist → z.map Prod.fst = fromlist := by
  induction fromlist with
  | nil => simp [combinations, List.sections]
  | cons i fromlist ih =>
    intro z hz
    rw [combinations_cons] at hz
    obtain ⟨z', hz', hcons⟩ := List.mem_flatMap.mp hz
    obtain ⟨r, _, rfl⟩ := List.mem_map.mp hcons
    rw [List.map_cons, ih hz']

/-- In a combination over a FROM list without repetitions, each entry's row is the one looked up. -/
theorem lookup_of_mem {z : List (Nat × Row α)} (hnodup : (z.map Prod.fst).Nodup) {i : Nat}
    {r : Row α} (h : (i, r) ∈ z) : z.lookup i = some r := by
  induction z with
  | nil => cases h
  | cons x z ih =>
    obtain ⟨j, s⟩ := x
    rw [List.map_cons, List.nodup_cons] at hnodup
    rcases List.mem_cons.mp h with heq | hmem
    · cases heq
      simp
    · have hne : (i == j) = false := by
        refine beq_false_of_ne ?_
        rintro rfl
        exact hnodup.1 (List.mem_map.mpr ⟨_, hmem, rfl⟩)
      rw [List.lookup_cons, hne]
      exact ih hnodup.2 hmem

/-- A combination has a row for each FROM entry. -/
theorem lookup_combination {tables : List (List (Row α))} {fromlist : List Nat}
    {z : List (Nat × Row α)} (hz : z ∈ combinations tables fromlist) {n : Nat} (hn : n ∈ fromlist) :
    (z.lookup n).getD [] ∈ tables.getD (n - 1) [] := by
  rw [combinations, List.mem_sections] at hz
  induction fromlist generalizing z with
  | nil => cases hn
  | cons i fromlist ih =>
    obtain ⟨x, z, hx, hrest, rfl⟩ := List.forall₂_cons_right_iff.mp hz
    obtain ⟨r, hr, rfl⟩ := List.mem_map.mp hx
    by_cases e : n = i
    · subst e
      simpa [List.lookup_cons] using hr
    · have hne : (n == i) = false := by simpa using e
      simpa [List.lookup_cons, hne] using ih hrest ((List.mem_cons.mp hn).resolve_left e)

theorem exists_mem_combinations {tables : List (List (Row α))} {fromlist : List Nat}
    (h : ∀ i ∈ fromlist, tables.getD (i - 1) [] ≠ []) : ∃ z, z ∈ combinations tables fromlist := by
  induction fromlist with
  | nil => exact ⟨[], by simp [combinations]⟩
  | cons i fromlist ih =>
    obtain ⟨z, hz⟩ := ih fun j hj => h j (List.mem_cons_of_mem _ hj)
    obtain ⟨r, hr⟩ := List.exists_mem_of_ne_nil _ (h i List.mem_cons_self)
    refine ⟨(i, r) :: z, ?_⟩
    rw [combinations, List.mem_sections] at hz ⊢
    exact .cons (List.mem_map_of_mem hr) hz

/-- Tables with rows have a combination of them. -/
theorem exists_combination_of_ne_nil {relids : List Oid} (h : ∀ relid ∈ relids, D relid ≠ []) :
    ∃ z, z ∈ combinations (relids.map D) (List.range' 1 relids.length) := by
  refine exists_mem_combinations fun i hi => ?_
  obtain ⟨h1, h2⟩ := List.mem_range'_1.mp hi
  have hlt : i - 1 < relids.length := by omega
  rw [List.getD_eq_getElem?_getD, List.getElem?_map, List.getElem?_eq_getElem hlt]
  exact h _ (List.getElem_mem hlt)

/-- If each table keeps the rows with a property and changes them, so do the combinations. -/
theorem combinations_filter_map {tables tables' : List (List (Row α))} {P : Nat → Row α → Bool}
    {f : Nat → Row α → Row α} {fromlist : List Nat}
    (h : ∀ i ∈ fromlist,
      tables'.getD (i - 1) [] = ((tables.getD (i - 1) []).filter (P i)).map (f i)) :
    combinations tables' fromlist =
      ((combinations tables fromlist).filter fun z => z.all fun x => P x.1 x.2).map
        fun z => z.map fun x => (x.1, f x.1 x.2) := by
  induction fromlist with
  | nil => rfl
  | cons i fromlist ih =>
    rw [List.forall_mem_cons] at h
    rw [combinations_cons, combinations_cons, ih h.2, h.1]
    -- for a combination of the other tables, the row of table `i` decides
    induction combinations tables fromlist with
    | nil => rfl
    | cons z zs ihz =>
      rw [List.flatMap_cons, List.filter_append, List.map_append, ← ihz, List.filter_cons]
      split <;> rename_i hz <;> simp [hz, List.filter_map, Function.comp_def]

theorem combinations_filter {tables tables' : List (List (Row α))} {P : Nat → Row α → Bool}
    {fromlist : List Nat}
    (h : ∀ i ∈ fromlist, tables'.getD (i - 1) [] = (tables.getD (i - 1) []).filter (P i)) :
    combinations tables' fromlist =
      (combinations tables fromlist).filter fun z => z.all fun x => P x.1 x.2 := by
  rw [combinations_filter_map (f := fun _ r => r) fun i hi => (h i hi).trans (List.map_id' _).symm]
  simp

theorem lookup_map_snd (f : Nat → Row α → Row α) (z : List (Nat × Row α)) (i : Nat) :
    (z.map fun x => (x.1, f x.1 x.2)).lookup i = (z.lookup i).map (f i) := by
  induction z with
  | nil => rfl
  | cons x z ih =>
    rw [List.map_cons, List.lookup_cons, List.lookup_cons, ih]
    cases hx : i == x.1 with
    | true => rw [eq_of_beq hx]; rfl
    | false => rfl

theorem lookup_map_pair (f : Nat → Row α) (fromlist : List Nat) (i : Nat) :
    (fromlist.map fun i => (i, f i)).lookup i = if i ∈ fromlist then some (f i) else none := by
  induction fromlist with
  | nil => rfl
  | cons j fromlist ih =>
    by_cases hij : i = j
    · simp [hij]
    · have hne : (i == j) = false := beq_false_of_ne hij
      simp [List.lookup_cons, hne, ih, hij]

/-- A combination is a choice of a row for each FROM entry. -/
theorem exists_combination_iff {tables : List (List (Row α))} {fromlist : List Nat}
    (hnodup : fromlist.Nodup) {Q : List (Nat × Row α) → Prop} :
    (∃ z ∈ combinations tables fromlist, Q z) ↔ ∃ f : Nat → Row α,
      (∀ i ∈ fromlist, f i ∈ tables.getD (i - 1) []) ∧ Q (fromlist.map fun i => (i, f i)) := by
  constructor
  · rintro ⟨z, hz, hQ⟩
    have hfst := map_fst_combination hz
    have hself : (fromlist.map fun i => (i, (z.lookup i).getD [])) = z := by
      rw [← hfst, List.map_map]
      conv_rhs => rw [← List.map_id' z]
      refine List.map_congr_left fun x hx => ?_
      simp [lookup_of_mem (hfst ▸ hnodup) (show (x.1, x.2) ∈ z from hx)]
    refine ⟨fun i => (z.lookup i).getD [], fun i hi => lookup_combination hz hi, ?_⟩
    rw [hself]
    exact hQ
  · rintro ⟨f, hf, hQ⟩
    refine ⟨_, ?_, hQ⟩
    clear hQ hnodup
    rw [combinations, List.mem_sections, List.forall₂_map_left_iff, List.forall₂_map_right_iff]
    induction fromlist with
    | nil => exact .nil
    | cons i fromlist ih =>
      rw [List.forall_mem_cons] at hf
      exact .cons (List.mem_map_of_mem hf.1) (ih hf.2)

end Infed
