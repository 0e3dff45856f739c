import Infed.CellList
import Mathlib.Order.Nat

/-! Heaps of linked lists in which every link goes to a later cell, so that no walk is on a cycle.
The operations keep this as long as a list is only linked to cells that are newer than its own
last cell; `Before` and `From` are the two halves of that condition. -/

namespace CellList.Heap

variable {β : Type}

structure Ordered (h : Heap β) : Prop where
  next : ∀ {a : Nat} {cell : Cell β} {n : Nat}, h.cells[a]? = some cell → cell.next = some n →
    a < n ∧ n < h.cells.length
  ends : ∀ {p : Nat} {list : Header}, h.lists[p]? = some list →
    list.head < h.cells.length ∧ list.tail < h.cells.length

/-- A list whose header is numbered from `M` on, with both its ends from cell `N` on. -/
def From (h : Heap β) (N M : Nat) : ListPtr → Prop
  | none => True
  | some p => M ≤ p ∧ ∃ list, h.lists[p]? = some list ∧ N ≤ list.head ∧ N ≤ list.tail

/-- A list whose header is numbered before `M` and that ends before cell `N`. -/
def Before (h : Heap β) (N M : Nat) : ListPtr → Prop
  | none => True
  | some p => p < M ∧ ∃ list, h.lists[p]? = some list ∧ list.tail < N

/-- The lists with a header before `M` end before cell `N`. -/
def EndsBefore (h : Heap β) (M N : Nat) : Prop :=
  ∀ p < M, ∀ list, h.lists[p]? = some list → list.tail < N

/-- The data of all cells. -/
def data (h : Heap β) : List β := h.cells.map Cell.data

/-- `h'` has the headers of `h`, with the same first cells and no earlier last cells, and unchanged
but for those in `L`. -/
structure Grows (L : Nat → Prop) (h h' : Heap β) : Prop where
  cells_le : h.cells.length ≤ h'.cells.length
  lists_le : h.lists.length ≤ h'.lists.length
  header : ∀ p < h.lists.length, ¬L p → h'.lists[p]? = h.lists[p]?
  ends : ∀ {p : Nat} {list : Header}, h.lists[p]? = some list →
    ∃ list', h'.lists[p]? = some list' ∧ list'.head = list.head ∧ list.tail ≤ list'.tail

variable {h h1 h2 : Heap β} {L L' : Nat → Prop} {N M N' M' : Nat} {l m : ListPtr}

theorem ordered_empty : (Heap.empty : Heap β).Ordered :=
  ⟨fun hc => by simp [Heap.empty] at hc, fun hc => by simp [Heap.empty] at hc⟩

theorem Ordered.chain (hO : h.Ordered) : ∀ {fuel : Nat} {c : Option Nat},
    (∀ a, c = some a → a < h.cells.length ∧ h.cells.length ≤ a + fuel) →
    ∃ data, h.chain fuel c = some data
  | 0, none, _ | _ + 1, none, _ => ⟨[], rfl⟩
  | 0, some a, hc => by
    have := hc a rfl
    omega
  | fuel + 1, some a, hc => by
    obtain ⟨hlt, hfuel⟩ := hc a rfl
    have hcell := List.getElem?_eq_getElem hlt
    obtain ⟨rest, hrest⟩ : ∃ rest, h.chain fuel h.cells[a].next = some rest := by
      refine hO.chain fun n hn => ?_
      have := hO.next hcell hn
      omega
    exact ⟨h.cells[a].data :: rest, by simp [Heap.chain, hcell, hrest]⟩

/-- Every list of an ordered heap ends. -/
theorem Ordered.foreach (hO : h.Ordered) (hl : h.From 0 0 l) : ∃ data, h.foreach l = some data := by
  cases l with
  | none => exact ⟨[], rfl⟩
  | some p =>
    obtain ⟨_, list, hlist, _⟩ := hl
    obtain ⟨data, hdata⟩ : ∃ data, h.chain h.cells.length (some list.head) = some data :=
      hO.chain (by
        rintro a ⟨⟩
        exact ⟨(hO.ends hlist).1, by omega⟩)
    exact ⟨data, by simp [Heap.foreach, hlist, hdata]⟩

theorem mem_data_of_chain : ∀ {fuel : Nat} {c : Option Nat} {ts : List β},
    h.chain fuel c = some ts → ∀ t ∈ ts, t ∈ h.data
  | 0, none, _, hc, t, ht | _ + 1, none, _, hc, t, ht => by
    cases hc
    simp at ht
  | 0, some _, _, hc, _, _ => by cases hc
  | fuel + 1, some c, ts, hc, t, ht => by
    simp only [Heap.chain, Option.bind_eq_bind, Option.bind_eq_some_iff, Option.some.injEq] at hc
    obtain ⟨cell, hcell, rest, hrest, rfl⟩ := hc
    rcases List.mem_cons.mp ht with rfl | ht
    · exact List.mem_map_of_mem (List.mem_of_getElem? hcell)
    · exact mem_data_of_chain hrest t ht

theorem mem_data_of_foreach {ts : List β} (hl : h.foreach l = some ts) : ∀ t ∈ ts, t ∈ h.data := by
  cases l with
  | none =>
    cases hl
    simp
  | some p =>
    simp only [Heap.foreach, Option.bind_eq_bind, Option.bind_eq_some_iff] at hl
    obtain ⟨list, _, hc⟩ := hl
    exact mem_data_of_chain hc

theorem From.mono (hl : h.From N M l) (hN : N' ≤ N) (hM : M' ≤ M) : h.From N' M' l := by
  cases l with
  | none => trivial
  | some p =>
    obtain ⟨hp, list, hlist, h1, h2⟩ := hl
    exact ⟨hM.trans hp, list, hlist, hN.trans h1, hN.trans h2⟩

theorem From.valid (hl : h.From N M l) : h.From 0 0 l := hl.mono (Nat.zero_le _) (Nat.zero_le _)

theorem From.le {p : Nat} (hl : h.From N M l) (he : l = some p) : M ≤ p := by
  subst he
  exact hl.1

theorem From.lt {p : Nat} (hl : h.From N M l) (he : l = some p) : p < h.lists.length := by
  subst he
  obtain ⟨_, _, hlist, _⟩ := hl
  exact (List.getElem?_eq_some_iff.mp hlist).1

theorem Before.lt {p : Nat} (hl : h.Before N M l) (he : l = some p) : p < M := by
  subst he
  exact hl.1

theorem From.or (hl : h.From N M l) (hm : h.From N M m) : h.From N M (l.or m) := by
  cases l with
  | none => exact hm
  | some p => exact hl

theorem Ordered.endsBefore (hO : h.Ordered) (M : Nat) : h.EndsBefore M h.cells.length :=
  fun _ _ _ hlist => (hO.ends hlist).2

theorem EndsBefore.mono (he : h.EndsBefore M N) (hM : M' ≤ M) (hN : N ≤ N') : h.EndsBefore M' N' :=
  fun p hp list hlist => (he p (Nat.lt_of_lt_of_le hp hM) list hlist).trans_le hN

theorem EndsBefore.before (he : h.EndsBefore M N) (hl : h.From N' M' l)
    (hM : ∀ p, l = some p → p < M) : h.Before N M l := by
  cases l with
  | none => trivial
  | some p =>
    obtain ⟨_, list, hlist, _⟩ := hl
    exact ⟨hM p rfl, list, hlist, he p (hM p rfl) list hlist⟩

namespace Grows

theorem refl (L : Nat → Prop) (h : Heap β) : Grows L h h :=
  ⟨Nat.le_refl _, Nat.le_refl _, fun _ _ _ => rfl, fun hl => ⟨_, hl, rfl, Nat.le_refl _⟩⟩

theorem trans (g1 : Grows L h h1) (g2 : Grows L' h1 h2) (hL : ∀ p < h.lists.length, L' p → L p) :
    Grows L h h2 where
  cells_le := g1.cells_le.trans g2.cells_le
  lists_le := g1.lists_le.trans g2.lists_le
  header p hp hn := (g2.header p (hp.trans_le g1.lists_le) fun h' => hn (hL p hp h')).trans
    (g1.header p hp hn)
  ends hl := by
    obtain ⟨list1, hl1, hhead1, htail1⟩ := g1.ends hl
    obtain ⟨list2, hl2, hhead2, htail2⟩ := g2.ends hl1
    exact ⟨list2, hl2, hhead2.trans hhead1, htail1.trans htail2⟩

theorem mono (g : Grows L h h1) (hL : ∀ p < h.lists.length, L p → L' p) : Grows L' h h1 :=
  ⟨g.cells_le, g.lists_le, fun p hp hn => g.header p hp fun h' => hn (hL p hp h'), g.ends⟩

theorem fromPtr (g : Grows L h h1) (hl : h.From N M l) : h1.From N M l := by
  cases l with
  | none => trivial
  | some p =>
    obtain ⟨hp, list, hlist, hhead, htail⟩ := hl
    obtain ⟨list', hlist', hhead', htail'⟩ := g.ends hlist
    exact ⟨hp, list', hlist', hhead' ▸ hhead, htail.trans htail'⟩

theorem before (g : Grows L h h1) (hl : h.Before N M l) (hL : ∀ p, l = some p → ¬L p) :
    h1.Before N M l := by
  cases l with
  | none => trivial
  | some p =>
    obtain ⟨hp, list, hlist, htail⟩ := hl
    have hlt := (List.getElem?_eq_some_iff.mp hlist).1
    exact ⟨hp, list, (g.header p hlt (hL p rfl)).trans hlist, htail⟩

/-- The lists that are not touched end where they did. -/
theorem endsBefore (g : Grows L h h1) (he : h.EndsBefore M N) (hM : M ≤ h.lists.length)
    (hL : ∀ p < M, ¬L p) : h1.EndsBefore M N := fun p hp list hlist =>
  he p hp list (by rw [← g.header p (hp.trans_le hM) (hL p hp)]; exact hlist)

end Grows

/-- Linking the cell `t` to a later one, or to a new one, keeps the order. -/
theorem Ordered.relink (hO : h.Ordered) {t n : Nat} (tail : Cell β) (p : Nat) (list' : Header)
    (new : List (Cell β)) (hn : t < n)
    (hn' : n < h.cells.length + new.length) (hnew : ∀ cell ∈ new, cell.next = none)
    (hends : list'.head < h.cells.length + new.length ∧ list'.tail < h.cells.length + new.length) :
    (⟨h.cells.set t { tail with next := some n } ++ new, h.lists.set p list'⟩ : Heap β).Ordered
      where
  next {a cell k} hcell hk := by
    simp only [List.length_append, List.length_set]
    rw [List.getElem?_append] at hcell
    split at hcell
    · rw [List.getElem?_set] at hcell
      split at hcell
      · next e =>
        subst e
        split at hcell
        · cases hcell
          cases hk
          exact ⟨hn, hn'⟩
        · cases hcell
      · have := hO.next hcell hk
        omega
    · have := hnew cell (List.mem_of_getElem? hcell)
      rw [hk] at this
      cases this
  ends {q list} hlist := by
    simp only [List.length_append, List.length_set]
    rw [List.getElem?_set] at hlist
    split at hlist
    · split at hlist
      · cases hlist
        exact hends
      · cases hlist
    · have := hO.ends hlist
      omega

theorem Grows.relink {p : Nat} {list : Header} (list' : Header) (cells : List (Cell β))
    (hlist : h.lists[p]? = some list) (hhead : list'.head = list.head)
    (htail : list.tail ≤ list'.tail) (hcells : h.cells.length ≤ cells.length) :
    Grows (fun q => q = p) h ⟨cells, h.lists.set p list'⟩ where
  cells_le := hcells
  lists_le := by simp
  header q _ hq := List.getElem?_set_ne fun e => hq e.symm
  ends {q list0} h0 := by
    by_cases e : p = q
    · subst e
      rw [hlist] at h0
      cases h0
      exact ⟨list', List.getElem?_set_self (List.getElem?_eq_some_iff.mp hlist).1, hhead, htail⟩
    · exact ⟨list0, (List.getElem?_set_ne e).trans h0, rfl, Nat.le_refl _⟩

/-- `lappend` in an ordered heap: it touches the list alone, and the list is no older than it
was. -/
theorem Ordered.lappend (hO : h.Ordered) (hl : h.From 0 0 l) (datum : β) :
    ∃ h' p, h.lappend l datum = some (h', some p) ∧ h'.Ordered ∧ Grows (fun q => l = some q) h h' ∧
      (l = some p ∨ l = none ∧ h.lists.length ≤ p) ∧
      (∀ N M, N ≤ h.cells.length → M ≤ h.lists.length → h.From N M l → h'.From N M (some p)) ∧
      ∀ t ∈ h'.data, t ∈ h.data ∨ t = datum := by
  cases l with
  | none =>
    refine ⟨_, _, rfl, ⟨fun {a cell n} hcell hn => ?_, fun {p list} hlist => ?_⟩,
      ⟨by simp, by simp, fun p hp _ => List.getElem?_append_left hp, fun {p list} hlist => ?_⟩,
      .inr ⟨rfl, Nat.le_refl _⟩, fun N M hN hM _ => ⟨hM, _, by simp; rfl, hN, hN⟩, ?_⟩
    · simp only [List.length_append, List.length_singleton]
      rw [List.getElem?_append] at hcell
      split at hcell
      · have := hO.next hcell hn
        omega
      · have := List.mem_of_getElem? hcell
        rw [List.mem_singleton.mp this] at hn
        cases hn
    · simp only [List.length_append, List.length_singleton]
      rw [List.getElem?_append] at hlist
      split at hlist
      · have := hO.ends hlist
        omega
      · have := List.mem_of_getElem? hlist
        rw [List.mem_singleton.mp this]
        simp
    · have hlt := (List.getElem?_eq_some_iff.mp hlist).1
      exact ⟨list, (List.getElem?_append_left hlt).trans hlist, rfl, Nat.le_refl _⟩
    · intro t ht
      simpa [data] using ht
  | some p =>
    obtain ⟨_, list, hlist, _⟩ := hl
    have htl := (hO.ends hlist).2
    have hhd := (hO.ends hlist).1
    have htail := List.getElem?_eq_getElem htl
    have hrel := hO.relink h.cells[list.tail] p
      { list with length := list.length + 1, tail := h.cells.length } [⟨datum, none⟩]
      htl (by simp) (by simp) (by simp; omega)
    have g := Grows.relink { list with length := list.length + 1, tail := h.cells.length }
      (h.cells.set list.tail { h.cells[list.tail] with next := some h.cells.length } ++
        [⟨datum, none⟩]) hlist rfl htl.le (by simp)
    refine ⟨_, p, by simp only [Heap.lappend, hlist, htail, Option.bind_eq_bind, Option.bind_some],
      hrel, g.mono fun q _ e => congrArg some e.symm, .inl rfl, ?_, ?_⟩
    · rintro N M hN hM ⟨hp, list0, hlist0, hhead, _⟩
      rw [hlist] at hlist0
      cases hlist0
      exact ⟨hp, _, List.getElem?_set_self (List.getElem?_eq_some_iff.mp hlist).1, hhead, hN⟩
    · intro t ht
      simp only [data, List.map_append, List.map_set, List.map_cons, List.map_nil,
        List.mem_append, List.mem_singleton] at ht
      rcases ht with ht | rfl
      · rcases List.mem_or_eq_of_mem_set ht with ht | rfl
        · exact .inl ht
        · exact .inl (List.mem_map_of_mem (List.getElem_mem htl))
      · exact .inr rfl

/-- `list_concat` in an ordered heap, of a list to a newer one. -/
theorem Ordered.listConcat (hO : h.Ordered) (hl : h.Before N M l) (hm : h.From N M m) :
    ∃ h', h.listConcat l m = some (h', l.or m) ∧ h'.Ordered ∧
      h'.cells.length = h.cells.length ∧ h'.data = h.data ∧ Grows (fun q => l = some q) h h' := by
  cases l with
  | none => exact ⟨h, by cases m <;> rfl, hO, rfl, rfl, Grows.refl _ _⟩
  | some p =>
    cases m with
    | none => exact ⟨h, rfl, hO, rfl, rfl, Grows.refl _ _⟩
    | some q =>
      obtain ⟨hp, list, hlist, hlt⟩ := hl
      obtain ⟨hMq, list2, hlist2, hhead2, htail2⟩ := hm
      have htl := (hO.ends hlist).2
      have htail := List.getElem?_eq_getElem htl
      have hends := hO.ends hlist2
      have hhd := (hO.ends hlist).1
      have hne : p ≠ q := by omega
      have hrel := hO.relink h.cells[list.tail] p
        ⟨list.length + list2.length, list.head, list2.tail⟩ [] (hlt.trans_le hhead2)
          (by simpa using hends.1) (by simp) ⟨hhd, hends.2⟩
      rw [List.append_nil] at hrel
      have g := Grows.relink ⟨list.length + list2.length, list.head, list2.tail⟩
        (h.cells.set list.tail { h.cells[list.tail] with next := some list2.head }) hlist rfl
        (hlt.le.trans htail2) (by simp)
      refine ⟨_, by simp only [Heap.listConcat, hne, if_false, hlist, hlist2, htail,
        Option.bind_eq_bind, Option.bind_some, Option.some_or], hrel, by simp, ?_,
        g.mono fun r _ e => congrArg some e.symm⟩
      rw [data, data, List.map_set, ← List.getElem_map Cell.data (h := by simpa using htl),
        List.set_getElem_self]

/-- A list built element by element from `NIL` is new. -/
theorem Ordered.lappendAll (hO : h.Ordered) (ts : List β) :
    ∃ h' r, h.lappendAll none ts = some (h', r) ∧ h'.Ordered ∧ Grows (fun _ => False) h h' ∧
      h'.From h.cells.length h.lists.length r ∧ (∀ t ∈ h'.data, t ∈ h.data ∨ t ∈ ts) ∧
      (ts = [] → r = none) := by
  suffices hgen : ∀ (ts : List β) (h1 : Heap β) (l : ListPtr), h1.Ordered →
      Grows (fun _ => False) h h1 → h1.From h.cells.length h.lists.length l →
      ∃ h' r, h1.lappendAll l ts = some (h', r) ∧ h'.Ordered ∧ Grows (fun _ => False) h h' ∧
        h'.From h.cells.length h.lists.length r ∧ (∀ t ∈ h'.data, t ∈ h1.data ∨ t ∈ ts) by
    obtain ⟨h', r, hrun, hO', g, hr, hd⟩ := hgen ts h none hO (Grows.refl _ _) trivial
    refine ⟨h', r, hrun, hO', g, hr, hd, ?_⟩
    rintro rfl
    cases hrun
    rfl
  intro ts
  induction ts with
  | nil => exact fun h1 l hO1 g hl => ⟨h1, l, rfl, hO1, g, hl, fun t ht => .inl ht⟩
  | cons t ts ih =>
    intro h1 l hO1 g hl
    obtain ⟨h2, p, hrun, hO2, g2, _, hfrom, hd⟩ := hO1.lappend hl.valid t
    obtain ⟨h', r, hrun', hO', g', hr, hd'⟩ := ih h2 (some p) hO2
      (g.trans g2 fun q hq e => by
        subst e
        exact absurd hl.1 (by omega))
      (hfrom _ _ g.cells_le g.lists_le hl)
    refine ⟨h', r, by simp [Heap.lappendAll, hrun, hrun'], hO', g', hr, fun s hs => ?_⟩
    rcases hd' s hs with hs | hs
    · rcases hd s hs with hs | rfl
      · exact .inl hs
      · exact .inr List.mem_cons_self
    · exact .inr (List.mem_cons_of_mem _ hs)

end CellList.Heap
