import Infed.Exist.Pass
import Mathlib.Data.List.Nodup
import Mathlib.Data.Set.Function
import Mathlib.Order.Interval.Set.Defs

/-! The renumbering of FROM entries.  The number of an entry is its position among the entries that
are left, and `deacrease` takes it to the position among fewer entries; so the rounds of
`optimize_exist`, which renumber the components that are still to come as well, compose to a single
renumbering. -/

namespace Infed.Exist

variable {n : Nat} {K c : List Nat} {P : List (List Nat)}

/-! ### Positions -/

/-- The number of the FROM entry `v` among the entries `K`. -/
def number (K : List Nat) (v : Nat) : Nat := (K.filter (· < v)).length + 1

/-- The entries without those of a component. -/
def rest (K c : List Nat) : List Nat := K.filter (· ∉ c)

theorem mem_rest {v : Nat} : v ∈ rest K c ↔ v ∈ K ∧ v ∉ c := by
  simp [rest]

theorem rest_rest (K c c' : List Nat) : rest (rest K c) c' = rest K (c ++ c') := by
  simp only [rest, List.filter_filter, List.mem_append, not_or, Bool.decide_and]
  exact List.filter_congr fun v _ => Bool.and_comm _ _

theorem nodup_of_ascending (h : K.Pairwise (· < ·)) : K.Nodup := h.imp fun hlt => Nat.ne_of_lt hlt

theorem rest_ascending (h : K.Pairwise (· < ·)) : (rest K c).Pairwise (· < ·) :=
  h.sublist List.filter_sublist

theorem filter_mem_perm (hc : c.Nodup) (hK : K.Nodup) (hsub : ∀ v ∈ c, v ∈ K) :
    (K.filter (· ∈ c)).Perm c := by
  refine (List.perm_ext_iff_of_nodup (hK.filter _) hc).mpr fun v => ?_
  simp only [List.mem_filter, decide_eq_true_eq]
  exact ⟨And.right, fun hv => ⟨hsub v hv, hv⟩⟩

theorem length_rest (hc : c.Nodup) (hK : K.Nodup) (hsub : ∀ v ∈ c, v ∈ K) :
    (rest K c).length + c.length = K.length := by
  have hperm := (filter_mem_perm hc hK hsub).length_eq
  have hsplit := List.length_eq_length_filter_add (l := K) (· ∈ c)
  simp only [rest, decide_not]
  omega

theorem getElem?_number (h : K.Pairwise (· < ·)) {v : Nat} (hv : v ∈ K) :
    K[number K v - 1]? = some v := by
  induction K with
  | nil => simp at hv
  | cons x K ih =>
    rw [List.pairwise_cons] at h
    simp only [number, Nat.add_sub_cancel] at ih ⊢
    rcases List.mem_cons.mp hv with rfl | hv
    · have hnone : (v :: K).filter (· < v) = [] := by
        refine List.filter_eq_nil_iff.mpr fun w hw => ?_
        rcases List.mem_cons.mp hw with rfl | hw
        · simp
        · have := h.1 w hw
          simp only [decide_eq_true_eq]
          omega
      rw [hnone]
      rfl
    · rw [List.filter_cons_of_pos (by simpa using h.1 v hv), List.length_cons,
        List.getElem?_cons_succ]
      exact ih h.2 hv

theorem number_lt_iff (h : K.Pairwise (· < ·)) {u v : Nat} (hu : u ∈ K) (hv : v ∈ K) :
    number K u < number K v ↔ u < v := by
  obtain ⟨hiu, hgetu⟩ := List.getElem?_eq_some_iff.mp (getElem?_number h hu)
  obtain ⟨hiv, hgetv⟩ := List.getElem?_eq_some_iff.mp (getElem?_number h hv)
  have hpair := List.pairwise_iff_getElem.mp h
  have hposu : 1 ≤ number K u := Nat.le_add_left _ _
  have hposv : 1 ≤ number K v := Nat.le_add_left _ _
  constructor
  · intro hlt
    have := hpair (number K u - 1) (number K v - 1) hiu hiv (by omega)
    rwa [hgetu, hgetv] at this
  · intro hlt
    by_contra hnot
    rcases Nat.eq_or_lt_of_le (Nat.le_of_not_lt hnot) with heq | hgt
    · simp only [heq] at hgetv
      omega
    · have := hpair (number K v - 1) (number K u - 1) hiv hiu (by omega)
      rw [hgetu, hgetv] at this
      omega

theorem number_inj (h : K.Pairwise (· < ·)) {u v : Nat} (hu : u ∈ K) (hv : v ∈ K)
    (heq : number K u = number K v) : u = v := by
  have h1 := number_lt_iff h hu hv
  have h2 := number_lt_iff h hv hu
  omega

/-- `deacrease` gives the number among the entries that are left. -/
theorem deacrease_number (hK : K.Pairwise (· < ·)) (hc : c.Nodup) (hsub : ∀ v ∈ c, v ∈ K)
    {v : Nat} (hv : v ∈ K) :
    deacrease (number K v) (c.map (number K)) = number (rest K c) v := by
  have hbefore : ((c.map (number K)).filter (number K v > ·)).length =
      (c.filter (· < v)).length := by
    rw [List.filter_map, List.length_map]
    refine congrArg List.length (List.filter_congr fun u hu => ?_)
    simp only [Function.comp_apply, gt_iff_lt, number_lt_iff hK (hsub u hu) hv]
  have hKnodup : K.Nodup := nodup_of_ascending hK
  have hperm : ((K.filter (· < v)).filter (· ∈ c)).Perm (c.filter (· < v)) := by
    refine (List.perm_ext_iff_of_nodup ((hKnodup.filter _).filter _) (hc.filter _)).mpr fun u => ?_
    simp only [List.mem_filter, decide_eq_true_eq]
    exact ⟨fun hu => ⟨hu.2, hu.1.2⟩, fun hu => ⟨⟨hsub u hu.1, hu.2⟩, hu.1⟩⟩
  have hsplit := List.length_eq_length_filter_add (l := K.filter (· < v)) (· ∈ c)
  have hrest : (rest K c).filter (· < v) = (K.filter (· < v)).filter fun u => !decide (u ∈ c) := by
    simp only [rest, List.filter_filter, decide_not]
    exact List.filter_congr fun u _ => Bool.and_comm _ _
  rw [deacrease, hbefore, number, number, hrest, ← hperm.length_eq]
  omega

theorem number_range {v : Nat} (h1 : 1 ≤ v) (hn : v ≤ n) : number (List.range' 1 n) v = v := by
  have hmem : v ∈ List.range' 1 n := List.mem_range'_1.mpr ⟨h1, by omega⟩
  have hget := getElem?_number List.pairwise_lt_range' hmem
  obtain ⟨hlt, heq⟩ := List.getElem?_eq_some_iff.mp hget
  have hpos : 1 ≤ number (List.range' 1 n) v := Nat.le_add_left _ _
  rw [List.getElem_range'] at heq
  omega

/-! ### Several components -/

/-- The components that are still to come, in the numbers of the next round. -/
theorem map_deacrease_number (hK : K.Pairwise (· < ·)) (hc : c.Nodup) (hsub : ∀ v ∈ c, v ∈ K)
    (hP : ∀ v ∈ P.flatten, v ∈ K) :
    (P.map (·.map (number K))).map (fun compo => compo.map (deacrease · (c.map (number K)))) =
      P.map (·.map (number (rest K c))) := by
  rw [List.map_map]
  refine List.map_congr_left fun compo hcompo => ?_
  rw [Function.comp_apply, List.map_map]
  refine List.map_congr_left fun v hv => ?_
  exact deacrease_number hK hc hsub (hP v (List.mem_flatten.mpr ⟨compo, hcompo, hv⟩))

theorem map_number_range (hP : ∀ v ∈ P.flatten, v ∈ List.range' 1 n) :
    P.map (·.map (number (List.range' 1 n))) = P := by
  refine (List.map_congr_left fun compo hcompo => ?_).trans (List.map_id P)
  refine (List.map_congr_left fun v hv => ?_).trans (List.map_id compo)
  have := List.mem_range'_1.mp (hP v (List.mem_flatten.mpr ⟨compo, hcompo, hv⟩))
  exact number_range this.1 (by omega)

/-- The first renumbering. -/
theorem deacrease_eq_number (hc : c.Nodup) (hsub : ∀ v ∈ c, v ∈ List.range' 1 n) {x : Nat}
    (hx : x ∈ List.range' 1 n) : deacrease x c = number (rest (List.range' 1 n) c) x := by
  have hmap : c.map (number (List.range' 1 n)) = c :=
    List.singleton_inj.mp (map_number_range (P := [c]) (by simpa using hsub))
  have hrange := List.mem_range'_1.mp hx
  have hdeacrease := deacrease_number List.pairwise_lt_range' hc hsub hx
  rwa [hmap, number_range hrange.1 (by omega)] at hdeacrease

/-- The number of a FROM entry after the rounds of `optimize_exist` on the components in the list.
As there, each round renumbers the components that are left. -/
def renumbered : Nat → List (List Nat) → Nat → Nat
  | _, [], x => x
  | 0, _ :: _, x => x
  | rounds + 1, listVarno :: list, x =>
    renumbered rounds (list.map fun compo => compo.map (deacrease · listVarno))
      (deacrease x listVarno)

/-- After the rounds an entry has its position among those that are left. -/
theorem renumbered_number (hK : K.Pairwise (· < ·)) (hP : P.flatten.Nodup)
    (hsub : ∀ v ∈ P.flatten, v ∈ K) {x : Nat} (hx : x ∈ K) (hxP : x ∉ P.flatten) :
    renumbered P.length (P.map (·.map (number K))) (number K x) =
      number (rest K P.flatten) x := by
  induction P generalizing K with
  | nil => simp [renumbered, rest]
  | cons c P ih =>
    rw [List.flatten_cons, List.nodup_append] at hP
    have hc : ∀ v ∈ c, v ∈ K := fun v hv => hsub v (by simp [hv])
    have hrest : ∀ v ∈ P.flatten, v ∈ K := fun v hv => hsub v (by simp [hv])
    rw [List.flatten_cons, List.mem_append, not_or] at hxP
    rw [List.length_cons, List.map_cons, renumbered, map_deacrease_number hK hP.1 hc hrest,
      deacrease_number hK hP.1 hc hx, List.flatten_cons, ← rest_rest]
    refine ih (rest_ascending hK) hP.2.1 (fun v hv => ?_) (mem_rest.mpr ⟨hx, hxP.1⟩) hxP.2
    exact mem_rest.mpr ⟨hrest v hv, fun hvc => hP.2.2 v hvc v hv rfl⟩

/-- The positions in an ascending list. -/
theorem bijOn_number (h : K.Pairwise (· < ·)) :
    Set.BijOn (number K) {x | x ∈ K} (Set.Icc 1 K.length) := by
  refine ⟨fun x hx => ?_, fun x hx y hy => number_inj h hx hy, fun i hi => ?_⟩
  · obtain ⟨hlt, _⟩ := List.getElem?_eq_some_iff.mp (getElem?_number h hx)
    have hpos : 1 ≤ number K x := Nat.le_add_left _ _
    exact ⟨hpos, by omega⟩
  · obtain ⟨h1, hlen⟩ := hi
    have hlt : i - 1 < K.length := by omega
    refine ⟨K[i - 1], List.getElem_mem hlt, ?_⟩
    obtain ⟨hlt', heq⟩ := List.getElem?_eq_some_iff.mp (getElem?_number h (List.getElem_mem hlt))
    have hindex := (nodup_of_ascending h).getElem_inj_iff.mp heq
    have hpos : 1 ≤ number K K[i - 1] := Nat.le_add_left _ _
    omega

/-- The rounds of `optimize_exist` on disjoint components renumber an entry that is in none of them
as one `deacrease` over all of them does, which maps the entries that are left in their order onto
the first numbers. -/
theorem deacrease_composes (hnodup : ∀ c ∈ P, c.Nodup) (hdisjoint : P.Pairwise List.Disjoint)
    (hfrom : ∀ c ∈ P, ∀ v ∈ c, 1 ≤ v ∧ v ≤ n) :
    (∀ x, 1 ≤ x → x ≤ n → (∀ c ∈ P, x ∉ c) → renumbered P.length P x = deacrease x P.flatten) ∧
      StrictMonoOn (deacrease · P.flatten) {x | 1 ≤ x ∧ x ≤ n ∧ ∀ c ∈ P, x ∉ c} ∧
      Set.BijOn (deacrease · P.flatten) {x | 1 ≤ x ∧ x ≤ n ∧ ∀ c ∈ P, x ∉ c}
        (Set.Icc 1 (n - P.flatten.length)) := by
  have hflatten : P.flatten.Nodup := List.nodup_flatten.mpr ⟨hnodup, hdisjoint⟩
  have hsub : ∀ v ∈ P.flatten, v ∈ List.range' 1 n := by
    intro v hv
    obtain ⟨c, hc, hvc⟩ := List.mem_flatten.mp hv
    have := hfrom c hc v hvc
    exact List.mem_range'_1.mpr ⟨this.1, by omega⟩
  have hrange : (List.range' 1 n).Pairwise (· < ·) := List.pairwise_lt_range'
  -- one `deacrease` is a single round
  have hone : ∀ x, 1 ≤ x → x ≤ n →
      deacrease x P.flatten = number (rest (List.range' 1 n) P.flatten) x := by
    intro x h1 hn
    exact deacrease_eq_number hflatten hsub (List.mem_range'_1.mpr ⟨h1, by omega⟩)
  have hleft : ∀ x, (1 ≤ x ∧ x ≤ n ∧ ∀ c ∈ P, x ∉ c) ↔
      x ∈ rest (List.range' 1 n) P.flatten := by
    intro x
    simp only [mem_rest, List.mem_range'_1, List.mem_flatten, not_exists, not_and]
    constructor
    · rintro ⟨h1, hn, hx⟩
      exact ⟨⟨h1, by omega⟩, hx⟩
    · rintro ⟨⟨h1, hn⟩, hx⟩
      exact ⟨h1, by omega, hx⟩
  have hasc : (rest (List.range' 1 n) P.flatten).Pairwise (· < ·) := rest_ascending hrange
  refine ⟨fun x h1 hn hx => ?_, fun x hx y hy hxy => ?_, ?_⟩
  · have hmem : x ∈ List.range' 1 n := List.mem_range'_1.mpr ⟨h1, by omega⟩
    have hnot : x ∉ P.flatten := by simpa [List.mem_flatten] using hx
    have hrounds := renumbered_number hrange hflatten hsub hmem hnot
    rw [map_number_range hsub, number_range h1 hn] at hrounds
    rw [hrounds, hone x h1 hn]
  · show deacrease x P.flatten < deacrease y P.flatten
    rw [hone x hx.1 hx.2.1, hone y hy.1 hy.2.1]
    exact (number_lt_iff hasc ((hleft x).mp hx) ((hleft y).mp hy)).mpr hxy
  · have hlength := length_rest hflatten List.nodup_range' hsub
    rw [List.length_range'] at hlength
    have hset : {x | 1 ≤ x ∧ x ≤ n ∧ ∀ c ∈ P, x ∉ c} =
        {x | x ∈ rest (List.range' 1 n) P.flatten} := Set.ext hleft
    have hbij := bijOn_number hasc
    rw [← hset, show (rest (List.range' 1 n) P.flatten).length = n - P.flatten.length by omega]
      at hbij
    exact hbij.congr fun x hx => (hone x hx.1 hx.2.1).symm

/-- The components 5, 2 and 4 of six tables: 1, 3, and 6 become 1, 2, and 3. -/
theorem deacrease_composes_six :
    ([1, 3, 6].map (renumbered 2 [[5, 2], [4]]) = [1, 2, 3]) ∧
      renumbered 2 [[5, 2], [4]] 6 = deacrease 6 [5, 2, 4] ∧
      Set.BijOn (deacrease · [5, 2, 4])
        {x | 1 ≤ x ∧ x ≤ 6 ∧ ∀ c ∈ [[5, 2], [4]], x ∉ c} (Set.Icc 1 3) := by
  obtain ⟨hrounds, _, hbij⟩ := deacrease_composes (n := 6) (P := [[5, 2], [4]]) (by decide)
    (by simp [List.Disjoint]) (by decide)
  exact ⟨by decide, hrounds 6 (by decide) (by decide) (by decide), hbij⟩

end Infed.Exist
