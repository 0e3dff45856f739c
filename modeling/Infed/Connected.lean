import Mathlib.Data.List.Nodup
import Mathlib.Data.List.Perm.Basic
import Mathlib.Logic.Relation

/-! Connectivity of a list of edges, and the lists of blocks that represent it.  Adding an edge
makes the classes of its two ends one; so does merging the two blocks they are in. -/

namespace Infed

variable {β : Type} {E E' : List (β × β)} {x y z : β}

/-- Linked by a chain of edges, each taken in either direction. -/
def Connected (E : List (β × β)) : β → β → Prop := Relation.EqvGen fun x y => (x, y) ∈ E

/-- The relation after the classes of `p` and `q` have become one. -/
def Joined (R : β → β → Prop) (p q x y : β) : Prop :=
  R x y ∨ R x p ∧ R q y ∨ R x q ∧ R p y

namespace Connected

theorem refl (E : List (β × β)) (x : β) : Connected E x x := Relation.EqvGen.refl x

theorem symm (h : Connected E x y) : Connected E y x := Relation.EqvGen.symm x y h

theorem trans (h : Connected E x y) (h' : Connected E y z) : Connected E x z :=
  Relation.EqvGen.trans x y z h h'

theorem edge (h : (x, y) ∈ E) : Connected E x y := Relation.EqvGen.rel x y h

/-- A chain of edges whose ends are linked by others is one of the others. -/
theorem of_edges (hE : ∀ p q, (p, q) ∈ E → Connected E' p q) (h : Connected E x y) :
    Connected E' x y := by
  induction h with
  | rel p q hpq => exact hE p q hpq
  | refl p => exact .refl E' p
  | symm _ _ _ ih => exact ih.symm
  | trans _ _ _ _ _ ih1 ih2 => exact ih1.trans ih2

theorem mono (hE : ∀ e ∈ E, e ∈ E') (h : Connected E x y) : Connected E' x y :=
  h.of_edges fun _ _ hpq => .edge (hE _ hpq)

/-- Without edges of its own, a place is linked with itself alone. -/
theorem isolated (hE : ∀ e ∈ E, e.1 ≠ x ∧ e.2 ≠ x) (h : Connected E x y) : y = x := by
  have hiff : ∀ {p q}, Connected E p q → (p = x ↔ q = x) := by
    intro p q hpq
    induction hpq with
    | rel p q hpq => exact iff_of_false (hE _ hpq).1 (hE _ hpq).2
    | refl p => exact Iff.rfl
    | symm _ _ _ ih => exact ih.symm
    | trans _ _ _ _ _ ih1 ih2 => exact ih1.trans ih2
  exact (hiff h).mp rfl

end Connected

theorem connected_nil : Connected ([] : List (β × β)) x y ↔ x = y := by
  constructor
  · intro h
    induction h with
    | rel _ _ h => exact absurd h List.not_mem_nil
    | refl => rfl
    | symm _ _ _ ih => exact ih.symm
    | trans _ _ _ _ _ ih1 ih2 => exact ih1.trans ih2
  · rintro rfl
    exact .refl [] x

theorem connected_concat {p q : β} :
    Connected (E ++ [(p, q)]) x y ↔ Joined (Connected E) p q x y := by
  have hold : ∀ {x y}, Connected E x y → Connected (E ++ [(p, q)]) x y := fun h =>
    h.mono fun _ he => List.mem_append_left _ he
  have hnew : Connected (E ++ [(p, q)]) p q := .edge (by simp)
  constructor
  · intro h
    induction h with
    | rel x y h =>
      rcases List.mem_append.mp h with h | h
      · exact .inl (.edge h)
      · obtain ⟨rfl, rfl⟩ := Prod.mk.inj (List.mem_singleton.mp h)
        exact .inr (.inl ⟨.refl E x, .refl E y⟩)
    | refl x => exact .inl (.refl E x)
    | symm _ _ _ ih =>
      rcases ih with h | ⟨h, h'⟩ | ⟨h, h'⟩
      · exact .inl h.symm
      · exact .inr (.inr ⟨h'.symm, h.symm⟩)
      · exact .inr (.inl ⟨h'.symm, h.symm⟩)
    | trans _ _ _ _ _ ih1 ih2 =>
      -- two detours over the new edge in a row cancel out
      rcases ih1 with h1 | ⟨h1, h1'⟩ | ⟨h1, h1'⟩ <;> rcases ih2 with h2 | ⟨h2, h2'⟩ | ⟨h2, h2'⟩
      · exact .inl (h1.trans h2)
      · exact .inr (.inl ⟨h1.trans h2, h2'⟩)
      · exact .inr (.inr ⟨h1.trans h2, h2'⟩)
      · exact .inr (.inl ⟨h1, h1'.trans h2⟩)
      · exact .inr (.inl ⟨h1, h2'⟩)
      · exact .inl (h1.trans h2')
      · exact .inr (.inr ⟨h1, h1'.trans h2⟩)
      · exact .inl (h1.trans h2')
      · exact .inr (.inr ⟨h1, h2'⟩)
  · rintro (h | ⟨h, h'⟩ | ⟨h, h'⟩)
    · exact hold h
    · exact ((hold h).trans hnew).trans (hold h')
    · exact ((hold h).trans hnew.symm).trans (hold h')

/-! ### Blocks -/

/-- Two elements of one block. -/
def InOne (L : List (List β)) (x y : β) : Prop := ∃ b ∈ L, x ∈ b ∧ y ∈ b

/-- The blocks after an edge from `p` to `q`: the same if one block has both, else with the two
blocks as one. -/
inductive Merges (L : List (List β)) (p q : β) : List (List β) → Prop where
  | same : InOne L p q → Merges L p q L
  | merge {b b' rest L'} : L.Perm (b :: b' :: rest) → p ∈ b ∧ q ∈ b' ∨ q ∈ b ∧ p ∈ b' →
    L'.Perm ((b ++ b') :: rest) → Merges L p q L'

variable {L L' : List (List β)} {p q : β}

theorem InOne.symm (h : InOne L x y) : InOne L y x := by
  obtain ⟨b, hb, hx, hy⟩ := h
  exact ⟨b, hb, hy, hx⟩

theorem inOne_comm : InOne L x y ↔ InOne L y x := ⟨InOne.symm, InOne.symm⟩

theorem inOne_self : InOne L x x ↔ x ∈ L.flatten := by
  simp [InOne, List.mem_flatten]

theorem inOne_perm (h : L.Perm L') : InOne L x y ↔ InOne L' x y := by
  simp only [InOne, h.mem_iff]

/-- Of disjoint blocks, one has a given element. -/
theorem block_unique (h : L.flatten.Nodup) {b b' : List β} (hb : b ∈ L) (hx : x ∈ b) (hb' : b' ∈ L)
    (hx' : x ∈ b') : b = b' := by
  induction L with
  | nil => simp at hb
  | cons c L ih =>
    rw [List.flatten_cons, List.nodup_append] at h
    have hother : ∀ d ∈ L, x ∈ d → x ∉ c := fun d hd hxd hxc =>
      h.2.2 x hxc x (List.mem_flatten.mpr ⟨d, hd, hxd⟩) rfl
    rcases List.mem_cons.mp hb with heq | hb <;> rcases List.mem_cons.mp hb' with heq' | hb'
    · exact heq.trans heq'.symm
    · exact absurd (heq ▸ hx) (hother b' hb' hx')
    · exact absurd (heq' ▸ hx') (hother b hb hx)
    · exact ih h.2.1 hb hb'

theorem InOne.trans (h : L.flatten.Nodup) (hxy : InOne L x y) (hyz : InOne L y z) :
    InOne L x z := by
  obtain ⟨b, hb, hx, hy⟩ := hxy
  obtain ⟨b', hb', hy', hz⟩ := hyz
  obtain rfl := block_unique h hb hy hb' hy'
  exact ⟨b, hb, hx, hz⟩

theorem Joined.comm {R : β → β → Prop} : Joined R p q x y ↔ Joined R q p x y := by
  unfold Joined
  tauto

theorem inOne_merge {b b' : List β} {rest : List (List β)}
    (h : (b :: b' :: rest).flatten.Nodup) (hp : p ∈ b) (hq : q ∈ b') :
    InOne ((b ++ b') :: rest) x y ↔ Joined (InOne (b :: b' :: rest)) p q x y := by
  have hmem : ∀ {c r x}, c ∈ b :: b' :: rest → r ∈ c → (InOne (b :: b' :: rest) r x ↔ x ∈ c) := by
    intro c r x hc hr
    refine ⟨fun ⟨d, hd, hrd, hx⟩ => ?_, fun hx => ⟨c, hc, hr, hx⟩⟩
    rwa [block_unique h hc hr hd hrd]
  have hb : ∀ {x}, InOne (b :: b' :: rest) p x ↔ x ∈ b := hmem List.mem_cons_self hp
  have hb' : ∀ {x}, InOne (b :: b' :: rest) q x ↔ x ∈ b' := hmem (by simp) hq
  unfold Joined
  rw [inOne_comm (y := p), inOne_comm (y := q), hb, hb, hb', hb']
  simp only [InOne, List.mem_cons, exists_eq_or_imp, List.mem_append]
  generalize (∃ a, a ∈ rest ∧ x ∈ a ∧ y ∈ a) = other
  tauto

namespace Merges

theorem symm (h : Merges L p q L') : Merges L q p L' := by
  cases h with
  | same hpq => exact .same hpq.symm
  | merge hperm hmem hperm' => exact .merge hperm hmem.symm hperm'

theorem flatten_perm (h : Merges L p q L') : L'.flatten.Perm L.flatten := by
  cases h with
  | same => exact .refl _
  | merge hL _ hL' =>
    refine hL'.flatten.trans (.trans ?_ hL.flatten.symm)
    rw [List.flatten_cons, List.flatten_cons, List.flatten_cons, List.append_assoc]

/-- Merging blocks is adding the edge. -/
theorem inOne_iff (hL : L.flatten.Nodup) (h : Merges L p q L') :
    InOne L' x y ↔ Joined (InOne L) p q x y := by
  cases h with
  | same hpq =>
    refine ⟨.inl, ?_⟩
    rintro (h | ⟨h, h'⟩ | ⟨h, h'⟩)
    · exact h
    · exact (h.trans hL hpq).trans hL h'
    · exact (h.trans hL hpq.symm).trans hL h'
  | @merge b b' rest _ hperm hmem hperm' =>
    have hnodup := hperm.flatten.nodup_iff.mp hL
    have hjoined : ∀ p q, Joined (InOne L) p q x y ↔ Joined (InOne (b :: b' :: rest)) p q x y := by
      intro p q
      simp only [Joined, inOne_perm hperm]
    rw [inOne_perm hperm', hjoined]
    rcases hmem with ⟨hp, hq⟩ | ⟨hq, hp⟩
    · exact inOne_merge hnodup hp hq
    · exact (inOne_merge hnodup hq hp).trans Joined.comm

/-- No block is split. -/
theorem subset (h : Merges L p q L') {b : List β} (hb : b ∈ L) : ∃ b' ∈ L', b ⊆ b' := by
  cases h with
  | same => exact ⟨b, hb, List.Subset.refl b⟩
  | @merge c c' rest _ hperm _ hperm' =>
    simp only [hperm.mem_iff, List.mem_cons] at hb
    simp only [hperm'.mem_iff, List.mem_cons, exists_eq_or_imp]
    rcases hb with rfl | rfl | hb
    · exact .inl (List.subset_append_left _ _)
    · exact .inl (List.subset_append_right _ _)
    · exact .inr ⟨b, hb, List.Subset.refl b⟩

theorem ne_nil (h : Merges L p q L') (hL : ∀ b ∈ L, b ≠ []) : ∀ b ∈ L', b ≠ [] := by
  cases h with
  | same => exact hL
  | @merge c c' rest _ hperm _ hperm' =>
    intro b hb
    have hL' : ∀ b ∈ c :: c' :: rest, b ≠ [] := fun b hb => hL b (hperm.mem_iff.mpr hb)
    rcases List.mem_cons.mp (hperm'.mem_iff.mp hb) with rfl | hb
    · simp [hL' c (by simp)]
    · exact hL' b (by simp [hb])

theorem inOne (h : Merges L p q L') : InOne L' p q := by
  cases h with
  | same hpq => exact hpq
  | merge _ hmem hperm' =>
    rw [inOne_perm hperm']
    refine ⟨_, List.mem_cons_self, ?_⟩
    rcases hmem with ⟨hp, hq⟩ | ⟨hq, hp⟩ <;> simp [hp, hq]

end Merges

end Infed
