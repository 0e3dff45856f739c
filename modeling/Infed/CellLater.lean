import Infed.CellList

/-! What a list can become.  A list whose last cell is known to others grows when they link more
cells to it; `Later` says that since a moment, of all the cells allocated from a given one on, only
the last cells of two lists have been linked to more. -/

namespace CellList.Heap

variable {β : Type}

/-- From the first cell of `l`, following `next` passes exactly the cells `as`; the header need not
know the last of them. -/
def Reads (h : Heap β) : ListPtr → List Nat → Prop
  | none, as => as = []
  | some p, as => ∃ list, h.lists[p]? = some list ∧ h.Path (some list.head) as

theorem Path.head {h : Heap β} {c : Option Nat} {as : List Nat} (hp : h.Path c as)
    (hne : as ≠ []) : as.head? = c := by
  cases as with
  | nil => exact absurd rfl hne
  | cons a as => exact hp.1.symm

theorem Holds.path {h : Heap β} {l : ListPtr} {as : List Nat} (hl : h.Holds l as)
    (hne : as ≠ []) : h.Path as.head? as := by
  cases l with
  | none => exact absurd hl hne
  | some p =>
    obtain ⟨list, _, hp, _⟩ := hl
    rw [hp.head hne]
    exact hp

theorem Holds.reads {h : Heap β} {l : ListPtr} {as : List Nat} (hl : h.Holds l as) :
    h.Reads l as := by
  cases l with
  | none => exact hl
  | some p =>
    obtain ⟨list, hlist, hp, _⟩ := hl
    exact ⟨list, hlist, hp⟩

theorem Reads.foreach {h : Heap β} {l : ListPtr} {as : List Nat} (hl : h.Reads l as) :
    h.foreach l = some (h.contents as) := by
  cases l with
  | none =>
    cases hl
    rfl
  | some p =>
    obtain ⟨list, hlist, hp⟩ := hl
    simp [Heap.foreach, hlist, hp.chain hp.length_le]

theorem Reads.lt {h : Heap β} {l : ListPtr} {as : List Nat} (hl : h.Reads l as) :
    ∀ a ∈ as, a < h.cells.length := by
  cases l with
  | none =>
    cases hl
    simp
  | some p =>
    obtain ⟨_, _, hp⟩ := hl
    exact hp.lt

/-- A list whose cells are not touched still reads the same. -/
theorem Frame.reads {C L : Nat → Prop} {h h' : Heap β} (f : Frame C L h h') {l : ListPtr}
    {as : List Nat} (hl : h.Reads l as) (hC : ∀ a ∈ as, ¬C a) : h'.Reads l as := by
  cases l with
  | none => exact hl
  | some p =>
    obtain ⟨list, hlist, hp⟩ := hl
    have hhead := f.head p (List.getElem?_eq_some_iff.mp hlist).1
    rw [hlist, Option.map_some, Option.map_eq_some_iff] at hhead
    obtain ⟨list', hlist', heq⟩ := hhead
    exact ⟨list', hlist', heq ▸ f.path hp hC⟩

/-- The heap `h'` is later than `h`: of the cells of `h` from `N` on, none has changed but the last
ones of `as` and `bs`, which by now go on with `xs` and `ys`. -/
structure Later (N : Nat) (h : Heap β) (as bs xs ys : List Nat) (h' : Heap β) : Prop where
  cell : ∀ a, N ≤ a → a < h.cells.length → ¬IsLast as a → ¬IsLast bs a →
    h'.cells[a]? = h.cells[a]?
  data : ∀ a < h.cells.length, (h'.cells[a]?).map Cell.data = (h.cells[a]?).map Cell.data
  head : ∀ p < h.lists.length, (h'.lists[p]?).map Header.head = (h.lists[p]?).map Header.head
  left : as ≠ [] → h'.Path as.head? (as ++ xs)
  right : bs ≠ [] → h'.Path bs.head? (bs ++ ys)

namespace Later

variable {C L : Nat → Prop} {N N' : Nat} {h h1 h' : Heap β} {as bs as1 bs1 as2 bs2 xs ys : List Nat}

theorem swap (l : Later N h as bs xs ys h') : Later N h bs as ys xs h' :=
  ⟨fun a ha hlt h1 h2 => l.cell a ha hlt h2 h1, l.data, l.head, l.right, l.left⟩

theorem contents (l : Later N h as bs xs ys h') {cs : List Nat}
    (hcs : ∀ a ∈ cs, a < h.cells.length) : h'.contents cs = h.contents cs :=
  contents_congr fun a ha => l.data a (hcs a ha)

/-- A list reads its cells and what they go on with. -/
theorem reads (l : Later N h as bs xs ys h') {r : ListPtr} (hr : h.Holds r as) :
    h'.Reads r (if as = [] then [] else as ++ xs) := by
  cases r with
  | none =>
    cases hr
    simp [Reads]
  | some p =>
    have hne := hr.ne_nil
    obtain ⟨list, hlist, hp, _⟩ := hr
    have hhead := l.head p (List.getElem?_eq_some_iff.mp hlist).1
    rw [hlist, Option.map_some, Option.map_eq_some_iff] at hhead
    obtain ⟨list', hlist', heq⟩ := hhead
    rw [if_neg hne]
    refine ⟨list', hlist', ?_⟩
    have hfirst := hp.head hne
    rw [heq, ← hfirst]
    exact l.left hne

theorem isLast_of_append (hold : ∀ a ∈ as1, a < N') (hnew : ∀ a ∈ as2, N' ≤ a) {a : Nat}
    (h : IsLast (as1 ++ as2) a) : as2 = [] ∧ IsLast as1 a ∧ a < N' ∨ IsLast as2 a ∧ N' ≤ a := by
  by_cases hne : as2 = []
  · subst hne
    rw [List.append_nil] at h
    exact .inl ⟨rfl, h, hold a h.mem⟩
  · rw [isLast_append_right hne] at h
    exact .inr ⟨h, hnew a h.mem⟩

theorem isLast_old (hold : ∀ a ∈ as1, a < N') (hnew : ∀ a ∈ as2, N' ≤ a) {a : Nat} (ha : a < N')
    (h : IsLast (as1 ++ as2) a) : IsLast as1 a := by
  rcases isLast_of_append hold hnew h with ⟨_, hlast, _⟩ | ⟨_, hge⟩
  · exact hlast
  · omega

theorem isLast_new (hold : ∀ a ∈ as1, a < N') (hnew : ∀ a ∈ as2, N' ≤ a) {a : Nat} (ha : N' ≤ a)
    (h : IsLast (as1 ++ as2) a) : IsLast as2 a := by
  rcases isLast_of_append hold hnew h with ⟨_, _, hlt⟩ | ⟨hlast, _⟩
  · omega
  · exact hlast

/-- What is later than two parts in a row is later than the second. -/
theorem second (l : Later N h (as1 ++ as2) (bs1 ++ bs2) xs ys h') (hN : N ≤ N')
    (hasold : ∀ a ∈ as1, a < N') (hasnew : ∀ a ∈ as2, N' ≤ a) (hbsold : ∀ a ∈ bs1, a < N')
    (hbsnew : ∀ a ∈ bs2, N' ≤ a) : Later N' h as2 bs2 xs ys h' := by
  refine ⟨fun a ha hlt h1 h2 => l.cell a (Nat.le_trans hN ha) hlt (fun hlast => ?_)
    (fun hlast => ?_),
    l.data, l.head, fun hne => ?_, fun hne => ?_⟩
  · exact h1 (isLast_new hasold hasnew ha hlast)
  · exact h2 (isLast_new hbsold hbsnew ha hlast)
  · have hp := l.left (by simp [hne])
    cases as2 with
    | nil => exact absurd rfl hne
    | cons a as2 =>
      rw [List.append_assoc] at hp
      exact hp.suffix as1
  · have hp := l.right (by simp [hne])
    cases bs2 with
    | nil => exact absurd rfl hne
    | cons b bs2 =>
      rw [List.append_assoc] at hp
      exact hp.suffix bs1

/-- What is later than two parts in a row is later than the first, which goes on with the second. -/
theorem first (l : Later N h (as1 ++ as2) (bs1 ++ bs2) xs ys h') (f : Frame C L h1 h)
    (hC : ∀ a, N ≤ a → C a → IsLast as1 a ∨ IsLast bs1 a)
    (hasold : ∀ a ∈ as1, a < h1.cells.length) (hasnew : ∀ a ∈ as2, h1.cells.length ≤ a)
    (hbsold : ∀ a ∈ bs1, a < h1.cells.length) (hbsnew : ∀ a ∈ bs2, h1.cells.length ≤ a) :
    Later N h1 as1 bs1 (as2 ++ xs) (bs2 ++ ys) h' := by
  refine ⟨fun a ha hlt hn1 hn2 => ?_, fun a ha => ?_, fun p hp => ?_, fun hne => ?_, fun hne => ?_⟩
  · refine (l.cell a ha (Nat.lt_of_lt_of_le hlt f.cells_le) (fun hlast => ?_)
      (fun hlast => ?_)).trans (f.cell a hlt fun hc => (hC a ha hc).elim hn1 hn2)
    · exact hn1 (isLast_old hasold hasnew hlt hlast)
    · exact hn2 (isLast_old hbsold hbsnew hlt hlast)
  · exact (l.data a (Nat.lt_of_lt_of_le ha f.cells_le)).trans (f.data a ha)
  · exact (l.head p (Nat.lt_of_lt_of_le hp f.lists_le)).trans (f.head p hp)
  · have hp := l.left (by simp [hne])
    rwa [List.head?_append_of_ne_nil _ hne, List.append_assoc] at hp
  · have hp := l.right (by simp [hne])
    rwa [List.head?_append_of_ne_nil _ hne, List.append_assoc] at hp

/-- What is later than a step that touches none of the cells from `N` on is later than its start. -/
theorem before (l : Later N h as bs xs ys h') (f : Frame C L h1 h) (hC : ∀ a, C a → a < N)
    (has : ∀ a ∈ as, a < h1.cells.length) (hbs : ∀ a ∈ bs, a < h1.cells.length) :
    Later N h1 as bs xs ys h' := by
  have l' : Later N h (as ++ []) (bs ++ []) xs ys h' := by simpa using l
  refine l'.first f (fun a ha hc => ?_) has (by simp) hbs (by simp)
  have := hC a hc
  omega

/-- Lists whose last cells are known to nobody any more stay as they are. -/
theorem inner (l : Later N h as2 bs2 xs ys h') (f : Frame C L h1 h) (hC : ∀ a, C a → a < N)
    (hasnew : ∀ a ∈ as2, h1.cells.length ≤ a) (hbsnew : ∀ a ∈ bs2, h1.cells.length ≤ a)
    {r s : ListPtr} (hr : h1.Holds r as) (hs : h1.Holds s bs) (has : ∀ a ∈ as, N ≤ a)
    (hbs : ∀ a ∈ bs, N ≤ a) : Later N h1 as bs [] [] h' := by
  have hcell : ∀ a, N ≤ a → a < h1.cells.length → h'.cells[a]? = h1.cells[a]? := by
    intro a ha hlt
    refine (l.cell a ha (Nat.lt_of_lt_of_le hlt f.cells_le) (fun hlast => ?_)
      (fun hlast => ?_)).trans (f.cell a hlt fun hc => ?_)
    · have := hasnew a hlast.mem
      omega
    · have := hbsnew a hlast.mem
      omega
    · have := hC a hc
      omega
  refine ⟨fun a ha hlt _ _ => hcell a ha hlt, fun a ha => ?_, fun p hp => ?_, fun hne => ?_,
    fun hne => ?_⟩
  · exact (l.data a (Nat.lt_of_lt_of_le ha f.cells_le)).trans (f.data a ha)
  · exact (l.head p (Nat.lt_of_lt_of_le hp f.lists_le)).trans (f.head p hp)
  · rw [List.append_nil]
    exact (hr.path hne).congr fun a ha => hcell a (has a ha) (hr.lt a ha)
  · rw [List.append_nil]
    exact (hs.path hne).congr fun a ha => hcell a (hbs a ha) (hs.lt a ha)

end Later

end CellList.Heap
