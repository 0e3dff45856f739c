import Infed.Exist.Renumber

/-! The deletions from the range table.  `rewrite_connexe` deletes the `i`-th table `v` of a
component at the index `v - 1 - i`, as if each deletion before had moved it by one place; a negative
index is the head of the list.  So a component is deleted only if no table that is to stay stands
where one of these indices falls. -/

namespace Infed.Exist

variable {β : Type} {K c : List Nat}

/-! ### Places -/

theorem getElem?_of_sublist {l l' : List β} (h : l'.Sublist l) {p : Nat} {x : β}
    (hx : l'[p]? = some x) : ∃ q, p ≤ q ∧ l[q]? = some x := by
  induction h generalizing p with
  | slnil => simp at hx
  | cons y _ ih =>
    obtain ⟨q, hq, hget⟩ := ih hx
    exact ⟨q + 1, by omega, by simpa using hget⟩
  | cons_cons y _ ih =>
    cases p with
    | zero => exact ⟨0, le_rfl, by simpa using hx⟩
    | succ p =>
      obtain ⟨q, hq, hget⟩ := ih (by simpa using hx)
      exact ⟨q + 1, by omega, by simpa using hget⟩

theorem place_inj {l : List β} (hl : l.Nodup) {p q : Nat} {x : β} (hp : l[p]? = some x)
    (hq : l[q]? = some x) : p = q := by
  obtain ⟨hlt, heq⟩ := List.getElem?_eq_some_iff.mp hp
  obtain ⟨hlt', heq'⟩ := List.getElem?_eq_some_iff.mp hq
  exact hl.getElem_inj_iff.mp (heq.trans heq'.symm)

theorem getElem?_eraseIdx_before {l : List β} {d p : Nat} (h : p < d) :
    (l.eraseIdx d)[p]? = l[p]? := by
  rw [List.getElem?_eraseIdx, if_pos h]

theorem getElem?_eraseIdx_after {l : List β} {d p : Nat} (h : d < p) :
    (l.eraseIdx d)[p - 1]? = l[p]? := by
  rw [List.getElem?_eraseIdx, if_neg (by omega), Nat.sub_add_cancel (by omega)]

/-! ### The loop -/

/-- The index of a deletion, with 0 for the negative ones. -/
theorem deleteRtes_cons (v i : Nat) (c : List Nat) (l : List β) :
    deleteRtes (v :: c) i l =
      if v - 1 - i < l.length then deleteRtes c (i + 1) (l.eraseIdx (v - 1 - i)) else none := by
  have hindex : ((v : Int) - 1 - i).toNat = v - 1 - i := by omega
  rw [deleteRtes, listNth, hindex]
  split
  · next hlt => rw [List.getElem?_eq_getElem hlt]; rfl
  · next hge => rw [List.getElem?_eq_none (by omega)]; rfl

/-- Numbers that are in the range table can all be deleted. -/
theorem deleteRtes_returns {l : List β} {i : Nat} (hlength : c.length ≤ l.length)
    (h : ∀ v ∈ c, v ≤ l.length + i) : ∃ l', deleteRtes c i l = some l' := by
  induction c generalizing i l with
  | nil => exact ⟨l, rfl⟩
  | cons v c ih =>
    rw [List.length_cons] at hlength
    rw [List.forall_mem_cons] at h
    have hlt : v - 1 - i < l.length := by omega
    rw [deleteRtes_cons, if_pos hlt]
    refine ih ?_ fun w hw => ?_
    · rw [List.length_eraseIdx_of_lt hlt]
      omega
    · have := h.2 w hw
      rw [List.length_eraseIdx_of_lt hlt]
      omega

theorem deleteRtes_sublist {l l' : List β} {i : Nat} (h : deleteRtes c i l = some l') :
    l'.Sublist l ∧ l'.length + c.length = l.length := by
  induction c generalizing i l with
  | nil =>
    cases h
    exact ⟨List.Sublist.refl _, rfl⟩
  | cons v c ih =>
    rw [deleteRtes_cons] at h
    split at h
    · next hlt =>
      obtain ⟨hsub, hlength⟩ := ih h
      rw [List.length_eraseIdx_of_lt hlt] at hlength
      exact ⟨hsub.trans (List.eraseIdx_sublist _ _), by rw [List.length_cons]; omega⟩
    · cases h

theorem deleteRtes_map {γ : Type} (f : β → γ) (c : List Nat) (i : Nat) (l : List β) :
    deleteRtes c i (l.map f) = (deleteRtes c i l).map (List.map f) := by
  induction c generalizing i l with
  | nil => rfl
  | cons v c ih =>
    rw [deleteRtes_cons, deleteRtes_cons, List.length_map, List.eraseIdx_map]
    split
    · exact ih _ _
    · rfl

/-! ### A component is deleted -/

/-- No index of the component falls on the table `u` or before it, if it is the index of a table
behind it; `above` tables behind `u` have been deleted before. -/
def Clears (u : Nat) : Nat → List Nat → Prop
  | _, [] => True
  | above, v :: c => if u < v then above < v - u ∧ Clears u (above + 1) c else Clears u above c

instance Clears.decidable (u : Nat) : ∀ above c, Decidable (Clears u above c)
  | _, [] => .isTrue trivial
  | above, v :: c =>
    have := Clears.decidable u (above + 1) c
    have := Clears.decidable u above c
    inferInstanceAs (Decidable
      (if u < v then above < v - u ∧ Clears u (above + 1) c else Clears u above c))

/-- Tables in ascending order clear every other one. -/
theorem clears_of_ascending {u above : Nat} (hc : c.Pairwise (· < ·))
    (h : ∀ v ∈ c, u < v → above < v - u) : Clears u above c := by
  induction c generalizing above with
  | nil => trivial
  | cons v c ih =>
    rw [List.pairwise_cons] at hc
    rw [List.forall_mem_cons] at h
    unfold Clears
    split
    · next hlt =>
      refine ⟨h.1 hlt, ih hc.2 fun w hw _ => ?_⟩
      have := h.1 hlt
      have := hc.1 w hw
      omega
    · exact ih hc.2 h.2

/-- A table that the component clears is still there, moved by the tables before it. -/
theorem deleteRtes_clears {l l' : List β} {u i p above : Nat} {x : β}
    (hx : l[p]? = some x) (hp : p + 1 + i = u + above) (hnot : u ∉ c)
    (hbefore : (c.filter (· < u)).length ≤ p) (hclears : Clears u above c)
    (h : deleteRtes c i l = some l') : l'[p - (c.filter (· < u)).length]? = some x := by
  induction c generalizing i l p above with
  | nil =>
    cases h
    exact hx
  | cons v c ih =>
    rw [deleteRtes_cons] at h
    split at h
    · rw [List.mem_cons, not_or] at hnot
      unfold Clears at hclears
      by_cases hlt : u < v
      · -- behind the table
        rw [if_pos hlt] at hclears
        rw [List.filter_cons_of_neg (by simpa using Nat.le_of_lt hlt)] at hbefore ⊢
        exact ih ((getElem?_eraseIdx_before (by omega)).trans hx) (by omega) hnot.2 hbefore
          hclears.2 h
      · rw [if_neg hlt] at hclears
        rw [List.filter_cons_of_pos (by simp only [decide_eq_true_eq]; omega), List.length_cons]
          at hbefore ⊢
        have hget := ih ((getElem?_eraseIdx_after (d := v - 1 - i) (by omega)).trans hx) (by omega)
          hnot.2 (by omega) hclears h
        rwa [show p - ((c.filter (· < u)).length + 1) = p - 1 - (c.filter (· < u)).length by omega]
    · cases h

/-- A table moves at least by the tables before it, and by no more only if the component clears
it. -/
theorem clears_of_deleteRtes {l l' : List β} (hl : l.Nodup) {u i p p' above : Nat} {x : β}
    (hx : l[p]? = some x) (hp : p + 1 + i = u + above) (hnot : u ∉ c)
    (h : deleteRtes c i l = some l') (hx' : l'[p']? = some x) :
    p' + (c.filter (· < u)).length ≤ p ∧
      (p' + (c.filter (· < u)).length = p → Clears u above c) := by
  induction c generalizing i l p above with
  | nil =>
    cases h
    obtain rfl := place_inj hl hx hx'
    exact ⟨le_rfl, fun _ => trivial⟩
  | cons v c ih =>
    rw [deleteRtes_cons] at h
    split at h
    · rw [List.mem_cons, not_or] at hnot
      have hnodup : (l.eraseIdx (v - 1 - i)).Nodup := hl.sublist (List.eraseIdx_sublist _ _)
      -- the table itself is not deleted
      have hne : v - 1 - i ≠ p := by
        rintro rfl
        have hmem := (deleteRtes_sublist h).1.subset (List.mem_of_getElem? hx')
        obtain ⟨q, hq⟩ := List.mem_iff_getElem?.mp hmem
        rw [List.getElem?_eraseIdx] at hq
        split at hq
        · have := place_inj hl hx hq
          omega
        · have := place_inj hl hx hq
          omega
      unfold Clears
      by_cases hlt : u < v
      · rw [if_pos hlt, List.filter_cons_of_neg (by simpa using Nat.le_of_lt hlt)]
        by_cases hbehind : p < v - 1 - i
        · have hmoves : p + 1 + (i + 1) = u + (above + 1) := by omega
          obtain ⟨hle, hclears⟩ := ih hnodup ((getElem?_eraseIdx_before hbehind).trans hx) hmoves
            hnot.2 h
          exact ⟨hle, fun heq => ⟨by omega, hclears heq⟩⟩
        · -- it moves although the deleted table should stand behind it
          have hstays : p - 1 + 1 + (i + 1) = u + above := by omega
          have hle := (ih hnodup ((getElem?_eraseIdx_after (by omega)).trans hx) hstays hnot.2 h).1
          exact ⟨by omega, fun heq => by omega⟩
      · rw [if_neg hlt, List.filter_cons_of_pos (by simp only [decide_eq_true_eq]; omega),
          List.length_cons]
        by_cases hbefore : v - 1 - i < p
        · have hstays : p - 1 + 1 + (i + 1) = u + above := by omega
          obtain ⟨hle, hclears⟩ := ih hnodup ((getElem?_eraseIdx_after hbefore).trans hx) hstays
            hnot.2 h
          exact ⟨by omega, fun heq => hclears (by omega)⟩
        · omega
    · cases h

/-! ### Places that are left alone -/

/-- Deletions at the place `r` and behind it leave what stands before. -/
theorem deleteRtes_spares {compo : List Nat} {l l' : List β} {r i : Nat}
    (h : deleteRtes compo i l = some l')
    (hspared : ∀ j w, compo[j]? = some w → r + (i + j) < w) : ∀ p < r, l'[p]? = l[p]? := by
  induction compo generalizing i l with
  | nil =>
    cases h
    exact fun _ _ => rfl
  | cons v compo ih =>
    rw [deleteRtes_cons] at h
    split at h
    · intro p hp
      have hv := hspared 0 v rfl
      rw [ih h (fun j w hw => ?_) p hp, getElem?_eraseIdx_before (by omega)]
      have := hspared (j + 1) w (by simpa using hw)
      omega
    · cases h

/-- An element that keeps its place has seen no deletion there or before. -/
theorem spares_of_deleteRtes {compo : List Nat} {l l' : List β} (hl : l.Nodup) {i p : Nat} {x : β}
    (h : deleteRtes compo i l = some l') (hx : l[p]? = some x) (hx' : l'[p]? = some x) :
    ∀ j w, compo[j]? = some w → p + 1 + (i + j) < w := by
  induction compo generalizing i l with
  | nil => simp
  | cons v compo ih =>
    rw [deleteRtes_cons] at h
    split at h
    · obtain ⟨q, hpq, hq⟩ := getElem?_of_sublist (deleteRtes_sublist h).1 hx'
      -- the element stands at `p` after this deletion, too
      have hplace : p < v - 1 - i ∧ (l.eraseIdx (v - 1 - i))[p]? = some x := by
        have hgot := hq
        rw [List.getElem?_eraseIdx] at hgot
        split at hgot
        · next hbefore =>
          obtain rfl := place_inj hl hx hgot
          exact ⟨hbefore, hq⟩
        · have := place_inj hl hx hgot
          omega
      have hnodup : (l.eraseIdx (v - 1 - i)).Nodup := hl.sublist (List.eraseIdx_sublist _ _)
      intro j w hw
      cases j with
      | zero =>
        obtain rfl : v = w := by simpa using hw
        omega
      | succ j =>
        have := ih hnodup h hplace.2 j w (by simpa using hw)
        omega
    · cases h

/-! ### The numbers of a round -/

section Round

variable (hK : K.Pairwise (· < ·)) (hc : c.Nodup) (hsub : ∀ v ∈ c, v ∈ K)
include hK

theorem number_le {v : Nat} (hv : v ∈ K) : number K v ≤ K.length := by
  obtain ⟨hlt, _⟩ := List.getElem?_eq_some_iff.mp (getElem?_number hK hv)
  omega

include hsub

theorem number_notMem {u : Nat} (hu : u ∈ rest K c) : number K u ∉ c.map (number K) := by
  intro hmem
  obtain ⟨v, hv, heq⟩ := List.mem_map.mp hmem
  obtain ⟨huK, hnot⟩ := mem_rest.mp hu
  exact hnot (number_inj hK (hsub v hv) huK heq ▸ hv)

include hc

theorem deleteRtes_number {l : List β} (hlength : l.length = K.length) :
    ∃ l', deleteRtes (c.map (number K)) 0 l = some l' := by
  have hle := length_rest hc (nodup_of_ascending hK) hsub
  refine deleteRtes_returns (by rw [List.length_map]; omega)
    (List.forall_mem_map.mpr fun v hv => ?_)
  have := number_le hK (hsub v hv)
  omega

/-- The numbers before that of a table which stays. -/
theorem length_filter_number {u : Nat} (hu : u ∈ rest K c) :
    ((c.map (number K)).filter (· < number K u)).length + number (rest K c) u = number K u := by
  have hdeacrease := deacrease_number hK hc hsub (mem_rest.mp hu).1
  have hpos : 1 ≤ number (rest K c) u := Nat.le_add_left _ _
  rw [deacrease] at hdeacrease
  simp only [gt_iff_lt] at hdeacrease
  omega

/-- A component is deleted if it clears every table that is to stay. -/
theorem deleteRtes_of_clears
    (h : ∀ u ∈ rest K c, Clears (number K u) 0 (c.map (number K))) (entry : Nat → β) :
    deleteRtes (c.map (number K)) 0 (K.map entry) = some ((rest K c).map entry) := by
  obtain ⟨l', hdelete⟩ := deleteRtes_number (l := K) hK hc hsub rfl
  obtain ⟨hsublist, hlength⟩ := deleteRtes_sublist hdelete
  rw [List.length_map] at hlength
  have hstays : rest K c ⊆ l' := by
    intro u hu
    have hfilter := length_filter_number hK hc hsub hu
    have hpos : 1 ≤ number K u := Nat.le_add_left _ _
    refine List.mem_of_getElem? (deleteRtes_clears (i := 0)
      (getElem?_number hK (mem_rest.mp hu).1) (by omega) (number_notMem hK hsub hu) ?_
      (h u hu) hdelete)
    have : 1 ≤ number (rest K c) u := Nat.le_add_left _ _
    omega
  have hasc : l'.Pairwise (· < ·) := hK.sublist hsublist
  have hnodup := nodup_of_ascending (rest_ascending (c := c) hK)
  have hperm : (rest K c).Perm l' := by
    refine (List.subperm_of_subset hnodup hstays).perm_of_length_le ?_
    have := length_rest hc (nodup_of_ascending hK) hsub
    omega
  obtain rfl : rest K c = l' := hperm.eq_of_pairwise (fun a b _ _ hab hba => by omega)
    (rest_ascending hK) hasc
  rw [deleteRtes_map, hdelete, Option.map_some]

/-- A component that is deleted clears every table that stays. -/
theorem clears_of_deleted {entry : Nat → β} (hentry : Function.Injective entry)
    (h : deleteRtes (c.map (number K)) 0 (K.map entry) = some ((rest K c).map entry)) :
    ∀ u ∈ rest K c, Clears (number K u) 0 (c.map (number K)) := by
  intro u hu
  rw [deleteRtes_map, Option.map_eq_some_iff] at h
  obtain ⟨l', hdelete, hl'⟩ := h
  obtain rfl := hentry.list_map hl'
  have hpos : 1 ≤ number K u := Nat.le_add_left _ _
  have hfilter := length_filter_number hK hc hsub hu
  have hpos' : 1 ≤ number (rest K c) u := Nat.le_add_left _ _
  exact (clears_of_deleteRtes (nodup_of_ascending hK) (getElem?_number hK (mem_rest.mp hu).1)
    (by omega) (number_notMem hK hsub hu) hdelete
    (getElem?_number (rest_ascending hK) hu)).2 (by omega)

end Round

end Infed.Exist
