import Mathlib.Data.List.Forall2

/-! Lists that are related element by element. -/

namespace Infed

variable {β γ : Type} {R : β → γ → Prop} {xs : List β} {ys : List γ}

/-- If each element is related to something, the list is related to a list of those. -/
theorem exists_forall₂ (h : ∀ x ∈ xs, ∃ y, R x y) : ∃ ys, List.Forall₂ R xs ys := by
  induction xs with
  | nil => exact ⟨[], .nil⟩
  | cons x xs ih =>
    rw [List.forall_mem_cons] at h
    obtain ⟨y, hy⟩ := h.1
    obtain ⟨ys, hys⟩ := ih h.2
    exact ⟨y :: ys, .cons hy hys⟩

theorem forall_of_forall₂ {P : β → Prop} {Q : γ → Prop} (h : List.Forall₂ R xs ys)
    (hPQ : ∀ x y, R x y → P x → Q y) (hxs : ∀ x ∈ xs, P x) : ∀ y ∈ ys, Q y := by
  induction h with
  | nil => simp
  | cons hxy _ ih =>
    rw [List.forall_mem_cons] at hxs ⊢
    exact ⟨hPQ _ _ hxy hxs.1, ih hxs.2⟩

theorem forall_right_of_forall₂ {Q : γ → Prop} (h : List.Forall₂ R xs ys)
    (hQ : ∀ x y, R x y → Q y) : ∀ y ∈ ys, Q y :=
  forall_of_forall₂ (P := fun _ => True) h (fun x y hxy _ => hQ x y hxy) fun _ _ => trivial

theorem flatMap_forall₂ {δ : Type} {f : β → List δ} {g : γ → List δ} (h : List.Forall₂ R xs ys)
    (hfg : ∀ x y, R x y → g y = f x) : ys.flatMap g = xs.flatMap f := by
  induction h with
  | nil => rfl
  | cons hxy _ ih => rw [List.flatMap_cons, List.flatMap_cons, hfg _ _ hxy, ih]

theorem forall₂_getD (h : List.Forall₂ R xs ys) {a : β} {b : γ} (hab : R a b) (n : Nat) :
    R (xs.getD n a) (ys.getD n b) := by
  induction h generalizing n with
  | nil => simpa using hab
  | cons h _ ih =>
    cases n with
    | zero => simpa using h
    | succ n => simpa using ih n

theorem forall₂_getElem? (h : List.Forall₂ R xs ys) {k : Nat} {x : β} (hx : xs[k]? = some x) :
    ∃ y, ys[k]? = some y ∧ R x y := by
  induction h generalizing k with
  | nil => simp at hx
  | cons hhead _ ih =>
    cases k with
    | zero =>
      obtain rfl : _ = x := by simpa using hx
      exact ⟨_, rfl, hhead⟩
    | succ k => exact ih hx

theorem forall₂_set (h : List.Forall₂ R xs ys) {k : Nat} {x : β} (hx : xs[k]? = some x) {y : γ}
    (hxy : R x y) : List.Forall₂ R xs (ys.set k y) := by
  induction h generalizing k with
  | nil => simp at hx
  | cons hhead htail ih =>
    cases k with
    | zero =>
      obtain rfl : _ = x := by simpa using hx
      exact .cons hxy htail
    | succ k => exact .cons hhead (ih hx)

/-- Of related lists, the elements with a property are related to some of those with another one
that it implies. -/
theorem forall₂_filter {p : β → Bool} {q : γ → Bool} (h : List.Forall₂ R xs ys)
    (hpq : ∀ x y, R x y → p x = true → q y = true) :
    ∃ zs, zs.Sublist (ys.filter q) ∧ List.Forall₂ R (xs.filter p) zs := by
  induction h with
  | nil => exact ⟨[], .slnil, .nil⟩
  | @cons x y xs ys hxy _ ih =>
    obtain ⟨zs, hsub, hrel⟩ := ih
    cases hp : p x with
    | true =>
      rw [List.filter_cons_of_pos hp, List.filter_cons_of_pos (hpq x y hxy hp)]
      exact ⟨y :: zs, hsub.cons_cons y, .cons hxy hrel⟩
    | false =>
      have hskip : (x :: xs).filter p = xs.filter p := List.filter_cons_of_neg (by simp [hp])
      rw [hskip]
      exact ⟨zs, hsub.trans ((List.sublist_cons_self y ys).filter q), hrel⟩

theorem forall₂_append_iff {as bs : List β} {cs ds : List γ} (hlen : as.length = cs.length) :
    List.Forall₂ R (as ++ bs) (cs ++ ds) ↔ List.Forall₂ R as cs ∧ List.Forall₂ R bs ds := by
  induction as generalizing cs with
  | nil =>
    obtain rfl := List.length_eq_zero_iff.mp hlen.symm
    simp
  | cons a as ih =>
    obtain ⟨c, cs, rfl⟩ := List.exists_cons_of_length_eq_add_one hlen.symm
    rw [List.cons_append, List.cons_append, List.forall₂_cons, List.forall₂_cons,
      ih (by simpa using hlen), and_assoc]

theorem forall₂_iff_eq_map {f : β → γ} :
    List.Forall₂ (fun x y => y = f x) xs ys ↔ ys = xs.map f := by
  rw [eq_comm, ← List.forall₂_eq_eq_eq, List.forall₂_map_left_iff]
  simp only [eq_comm]

end Infed
