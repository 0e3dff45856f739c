import Infed.TrueVar
import Mathlib.Data.List.Induction
import Mathlib.Data.List.Nodup

/-! `inter_list` by counting.  It is called on the columns of all arguments of a connective in one
list, and keeps those that occur as often as there are arguments; since no argument has a column
twice, these are the columns that every argument has. -/

namespace Infed

/-- The list has exactly the columns with `P`, each once, in the order in which they first occur in
`l`. -/
structure FirstOccurrences (P : Oid × Nat → Prop) (l out : List (Oid × Nat)) : Prop where
  mem : ∀ c, c ∈ out ↔ P c
  nodup : out.Nodup
  order : out.Pairwise fun c d => l.idxOf c < l.idxOf d

/-- What the loop keeps by a test on the column is in the order of first occurrence. -/
theorem keepNew_order (test : Oid × Nat → Bool) (l : List TrueVar) :
    ((keepNew (fun v => test v.column) l).map TrueVar.column).Pairwise fun c d =>
      (l.map TrueVar.column).idxOf c < (l.map TrueVar.column).idxOf d := by
  -- the induction adds elements at the end, as the loop does
  induction l using List.reverseRecOn with
  | nil => exact .nil
  | append_singleton l t ih =>
    have hsub : ∀ c ∈ (keepNew (fun v => test v.column) l).map TrueVar.column,
        c ∈ l.map TrueVar.column := by
      intro c hc
      obtain ⟨v, hv, _, rfl⟩ := mem_keepNew_column.mp hc
      exact List.mem_map_of_mem hv
    have hlist : (l ++ [t]).map TrueVar.column = l.map TrueVar.column ++ [t.column] := by simp
    have hstep : keepNew (fun v => test v.column) (l ++ [t]) =
        if test t.column && !isInListTrueVar (keepNew (fun v => test v.column) l) t then
          keepNew (fun v => test v.column) l ++ [t]
        else keepNew (fun v => test v.column) l := by
      rw [keepNew, List.foldl_append]
      rfl
    have hold : ((keepNew (fun v => test v.column) l).map TrueVar.column).Pairwise fun c d =>
        (l.map TrueVar.column ++ [t.column]).idxOf c <
          (l.map TrueVar.column ++ [t.column]).idxOf d := by
      refine ih.imp_of_mem fun hc hd hlt => ?_
      rw [List.idxOf_append_of_mem (hsub _ hc), List.idxOf_append_of_mem (hsub _ hd)]
      exact hlt
    rw [hstep, hlist]
    split
    · next hkeep =>
      rw [Bool.and_eq_true, Bool.not_eq_true'] at hkeep
      -- an earlier occurrence would have been kept
      have hfirst : t.column ∉ l.map TrueVar.column := by
        intro hmem
        obtain ⟨v, hv, hvt⟩ := List.mem_map.mp hmem
        have hin : t.column ∈ (keepNew (fun v => test v.column) l).map TrueVar.column :=
          mem_keepNew_column.mpr ⟨v, hv, by rw [hvt]; exact hkeep.1, hvt⟩
        rw [← isInListTrueVar_iff, hkeep.2] at hin
        cases hin
      rw [List.map_append, List.map_singleton, List.pairwise_append]
      refine ⟨hold, List.pairwise_singleton _ _, fun c hc d hd => ?_⟩
      obtain rfl := List.mem_singleton.mp hd
      rw [List.idxOf_append_of_mem (hsub c hc), List.idxOf_append_of_notMem hfirst]
      exact Nat.lt_add_right _ (List.idxOf_lt_length_iff.mpr (hsub c hc))
    · exact hold

/-- A column occurs at most once in each of the lists, and so as often as there are lists only if
all of them have it. -/
theorem count_flatten_eq_length {L : List (List TrueVar)}
    (h : ∀ A ∈ L, (A.map TrueVar.column).Nodup) (c : Oid × Nat) :
    (L.flatten.map TrueVar.column).count c ≤ L.length ∧
      ((L.flatten.map TrueVar.column).count c = L.length ↔
        ∀ A ∈ L, c ∈ A.map TrueVar.column) := by
  induction L with
  | nil => simp
  | cons A L ih =>
    rw [List.forall_mem_cons] at h
    obtain ⟨hle, hiff⟩ := ih h.2
    have hone := List.nodup_iff_count_le_one.mp h.1 c
    have hmem := List.count_pos_iff (a := c) (l := A.map TrueVar.column)
    rw [List.flatten_cons, List.map_append, List.count_append, List.length_cons,
      List.forall_mem_cons, ← hiff, ← hmem]
    omega

/-- Over the concatenation of lists without repetition, one for each argument, `inter_list` computes
their intersection and `union_list` their union. -/
theorem interList_unionList_flatten {L : List (List TrueVar)} {n : Nat} (hn : 1 ≤ n)
    (hlength : L.length = n) (h : ∀ A ∈ L, (A.map TrueVar.column).Nodup) :
    FirstOccurrences (fun c => ∀ A ∈ L, c ∈ A.map TrueVar.column)
        (L.flatten.map TrueVar.column) ((interList L.flatten n).map TrueVar.column) ∧
      FirstOccurrences (fun c => ∃ A ∈ L, c ∈ A.map TrueVar.column)
        (L.flatten.map TrueVar.column) ((unionList L.flatten).map TrueVar.column) := by
  have hflatten : ∀ c, c ∈ L.flatten.map TrueVar.column ↔ ∃ A ∈ L, c ∈ A.map TrueVar.column := by
    intro c
    rw [List.map_flatten, List.mem_flatten]
    constructor
    · rintro ⟨B, hB, hc⟩
      obtain ⟨A, hA, rfl⟩ := List.mem_map.mp hB
      exact ⟨A, hA, hc⟩
    · rintro ⟨A, hA, hc⟩
      exact ⟨_, List.mem_map_of_mem hA, hc⟩
  refine ⟨⟨fun c => ?_, keepNew_nodup _ _, ?_⟩, ⟨fun c => ?_, keepNew_nodup _ _, ?_⟩⟩
  · rw [mem_interList_column, ← hlength, (count_flatten_eq_length h c).2]
    refine and_iff_right_of_imp fun hall => ?_
    obtain ⟨A, hA⟩ := List.exists_mem_of_length_pos (l := L) (by omega)
    exact (hflatten c).mpr ⟨A, hA, hall A hA⟩
  · have hcolumn := keepNew_order
      (fun c => (L.flatten.map TrueVar.column).count c == n) L.flatten
    simp only [← countP_column] at hcolumn
    exact hcolumn
  · rw [mem_unionList_column, hflatten]
  · exact keepNew_order (fun _ => true) L.flatten

/-- Of the columns `(b, a)`, none, and `(a, c, b)`, the union is `(b, a, c)` and the intersection
empty; without the empty list it is `(b, a)`. -/
theorem interList_unionList_flatten_three :
    (unionList [⟨0, 1, 2⟩, ⟨0, 1, 1⟩, ⟨1, 1, 1⟩, ⟨1, 1, 3⟩, ⟨1, 1, 2⟩]).map TrueVar.column =
        [(1, 2), (1, 1), (1, 3)] ∧
      interList [⟨0, 1, 2⟩, ⟨0, 1, 1⟩, ⟨1, 1, 1⟩, ⟨1, 1, 3⟩, ⟨1, 1, 2⟩] 3 = [] ∧
      FirstOccurrences
        (fun c => ∀ A ∈ [[⟨0, 1, 2⟩, ⟨0, 1, 1⟩], [⟨1, 1, 1⟩, ⟨1, 1, 3⟩, ⟨1, 1, 2⟩]],
          c ∈ A.map TrueVar.column)
        [(1, 2), (1, 1), (1, 1), (1, 3), (1, 2)] [(1, 2), (1, 1)] := by
  have h := interList_unionList_flatten (n := 2)
    (L := [[⟨0, 1, 2⟩, ⟨0, 1, 1⟩], [⟨1, 1, 1⟩, ⟨1, 1, 3⟩, ⟨1, 1, 2⟩]]) (by decide) rfl (by decide)
  exact ⟨by decide, by decide, h.1⟩

end Infed
