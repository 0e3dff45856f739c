import Mathlib.Data.List.Perm.Subperm

/-! Singly linked lists in a heap, with the destructive operations of `nodes/list.c`.  A list is a
header with its first and its last cell, and concatenation links the last cell of one list to the
first cell of another, so that two headers can reach the same cells and a list grows under every
header that reaches its last cell. -/

namespace CellList

variable {β : Type}

structure Cell (β : Type) where
  data : β
  next : Option Nat
  deriving DecidableEq, Repr

structure Header where
  length : Nat
  head : Nat
  tail : Nat
  deriving DecidableEq, Repr

/-- The allocated cells and list headers; an address is a position. -/
structure Heap (β : Type) where
  cells : List (Cell β)
  lists : List Header
  deriving Repr

/-- A pointer to a list; `none` is `NIL`. -/
abbrev ListPtr := Option Nat

namespace Heap

def empty : Heap β := ⟨[], []⟩

/-- Append a datum in place, or allocate a list for it. -/
def lappend (h : Heap β) (l : ListPtr) (datum : β) : Option (Heap β × ListPtr) :=
  match l with
  | none =>
    some (⟨h.cells ++ [⟨datum, none⟩], h.lists ++ [⟨1, h.cells.length, h.cells.length⟩]⟩,
      some h.lists.length)
  | some p => do
    let list ← h.lists[p]?
    let tail ← h.cells[list.tail]?
    some (⟨h.cells.set list.tail { tail with next := some h.cells.length } ++ [⟨datum, none⟩],
      h.lists.set p { list with length := list.length + 1, tail := h.cells.length }⟩, some p)

/-- Link the cells of `list2` to the end of `list1`; linking a list to itself is an error. -/
def listConcat (h : Heap β) (list1 list2 : ListPtr) : Option (Heap β × ListPtr) :=
  match list1, list2 with
  | none, _ => some (h, list2)
  | _, none => some (h, list1)
  | some p, some q =>
    if p = q then none
    else do
      let l1 ← h.lists[p]?
      let l2 ← h.lists[q]?
      let tail ← h.cells[l1.tail]?
      some (⟨h.cells.set l1.tail { tail with next := some l2.head },
        h.lists.set p ⟨l1.length + l2.length, l1.head, l2.tail⟩⟩, some p)

/-- The data from a cell on, following `next`.  A walk that passes more cells than there are is on
a cycle and never ends. -/
def chain (h : Heap β) : Nat → Option Nat → Option (List β)
  | _, none => some []
  | 0, some _ => none
  | fuel + 1, some c => do
    let cell ← h.cells[c]?
    let rest ← h.chain fuel cell.next
    some (cell.data :: rest)

/-- The data that `foreach` runs over. -/
def foreach (h : Heap β) : ListPtr → Option (List β)
  | none => some []
  | some p => do
    let list ← h.lists[p]?
    h.chain h.cells.length (some list.head)

/-- Whether some datum from a cell on passes a test; the walk stops at the first that does. -/
def anyFrom (h : Heap β) (test : β → Bool) : Nat → Option Nat → Option Bool
  | _, none => some false
  | 0, some _ => none
  | fuel + 1, some c => do
    let cell ← h.cells[c]?
    if test cell.data then some true else h.anyFrom test fuel cell.next

def any (h : Heap β) (test : β → Bool) : ListPtr → Option Bool
  | none => some false
  | some p => do
    let list ← h.lists[p]?
    h.anyFrom test h.cells.length (some list.head)

/-- Append the elements of `data` one after the other. -/
def lappendAll (h : Heap β) (l : ListPtr) : List β → Option (Heap β × ListPtr)
  | [] => some (h, l)
  | datum :: data => do
    let (h, l) ← h.lappend l datum
    h.lappendAll l data

theorem anyFrom_of_chain {h : Heap β} {test : β → Bool} : ∀ {fuel : Nat} {c : Option Nat}
    {data : List β}, h.chain fuel c = some data → h.anyFrom test fuel c = some (data.any test)
  | 0, none, _, hc | _ + 1, none, _, hc => by
    cases hc
    rfl
  | 0, some _, _, hc => by cases hc
  | fuel + 1, some c, data, hc => by
    simp only [chain, Option.bind_eq_bind, Option.bind_eq_some_iff, Option.some.injEq] at hc
    obtain ⟨cell, hcell, rest, hrest, rfl⟩ := hc
    have ih : h.anyFrom test fuel cell.next = some (rest.any test) := anyFrom_of_chain hrest
    by_cases ht : test cell.data = true <;> simp [anyFrom, hcell, ih, ht]

/-- On a list that ends, the search and the whole walk agree. -/
theorem any_of_foreach {h : Heap β} {test : β → Bool} {l : ListPtr} {data : List β}
    (hl : h.foreach l = some data) : h.any test l = some (data.any test) := by
  cases l with
  | none =>
    cases hl
    rfl
  | some p =>
    simp only [foreach, Option.bind_eq_bind, Option.bind_eq_some_iff] at hl
    obtain ⟨list, hlist, hc⟩ := hl
    simp [any, hlist, anyFrom_of_chain hc]

/-! ### Paths -/

/-- Following `next` from `c` passes exactly the cells `as` and ends. -/
def Path (h : Heap β) : Option Nat → List Nat → Prop
  | c, [] => c = none
  | c, a :: as => c = some a ∧ ∃ cell, h.cells[a]? = some cell ∧ h.Path cell.next as

/-- The data of the cells `as`. -/
def contents (h : Heap β) (as : List Nat) : List β :=
  as.filterMap fun a => (h.cells[a]?).map Cell.data

theorem Path.lt {h : Heap β} : ∀ {as : List Nat} {c : Option Nat}, h.Path c as →
    ∀ a ∈ as, a < h.cells.length
  | [], _, _, _, ha => by simp at ha
  | b :: as, c, ⟨_, cell, hcell, hrest⟩, a, ha => by
    rcases List.mem_cons.mp ha with rfl | ha
    · exact (List.getElem?_eq_some_iff.mp hcell).1
    · exact hrest.lt a ha

/-- The path from a cell is determined by the heap. -/
theorem Path.unique {h : Heap β} : ∀ {as bs : List Nat} {c : Option Nat}, h.Path c as →
    h.Path c bs → as = bs
  | [], [], _, _, _ => rfl
  | [], b :: bs, _, hc, ⟨hc', _⟩ => by rw [hc] at hc'; cases hc'
  | a :: as, [], _, ⟨hc', _⟩, hc => by rw [hc] at hc'; cases hc'
  | a :: as, b :: bs, c, ⟨hc, cell, hcell, hrest⟩, ⟨hc', cell', hcell', hrest'⟩ => by
    obtain rfl : a = b := by rw [hc] at hc'; exact Option.some.inj hc'
    obtain rfl : cell = cell' := by rw [hcell] at hcell'; exact Option.some.inj hcell'
    rw [hrest.unique hrest']

/-- A path passes through each of its suffixes. -/
theorem Path.suffix {h : Heap β} : ∀ (xs : List Nat) {as : List Nat} {a : Nat} {c : Option Nat},
    h.Path c (xs ++ a :: as) → h.Path (some a) (a :: as)
  | [], _, _, _, ⟨_, hrest⟩ => ⟨rfl, hrest⟩
  | _ :: xs, _, _, _, ⟨_, _, _, hrest⟩ => hrest.suffix xs

theorem Path.nodup {h : Heap β} : ∀ {as : List Nat} {c : Option Nat}, h.Path c as → as.Nodup
  | [], _, _ => List.nodup_nil
  | a :: as, c, hp@⟨_, cell, hcell, hrest⟩ => by
    refine List.nodup_cons.mpr ⟨fun ha => ?_, hrest.nodup⟩
    obtain ⟨xs, ys, rfl⟩ := List.append_of_mem ha
    have h1 : h.Path (some a) (a :: ys) := hrest.suffix xs
    have h2 : h.Path (some a) (a :: (xs ++ a :: ys)) := hp.suffix []
    have hlen := congrArg List.length (h1.unique h2)
    simp at hlen
    omega

theorem Path.length_le {h : Heap β} {as : List Nat} {c : Option Nat} (hp : h.Path c as) :
    as.length ≤ h.cells.length := by
  have hsub : as ⊆ List.range h.cells.length := fun a ha => List.mem_range.mpr (hp.lt a ha)
  simpa using (hp.nodup.subperm hsub).length_le

theorem Path.chain {h : Heap β} : ∀ {as : List Nat} {c : Option Nat} {fuel : Nat}, h.Path c as →
    as.length ≤ fuel → h.chain fuel c = some (h.contents as)
  | [], _, fuel, hc, _ => by
    cases hc
    cases fuel <;> rfl
  | a :: as, _, 0, _, hf => by simp at hf
  | a :: as, _, fuel + 1, ⟨hc, cell, hcell, hrest⟩, hf => by
    subst hc
    have ih : h.chain fuel cell.next = some (h.contents as) := hrest.chain (by simpa using hf)
    simp [Heap.chain, hcell, ih, contents]

/-- The last cell of a path has no successor. -/
theorem Path.last_next {h : Heap β} : ∀ {as : List Nat} {c : Option Nat} {t : Nat}, h.Path c as →
    as.getLast? = some t → ∃ cell, h.cells[t]? = some cell ∧ cell.next = none
  | [], _, _, _, ht => by simp at ht
  | [a], _, t, ⟨_, cell, hcell, hrest⟩, ht => by
    obtain rfl : a = t := by simpa using ht
    exact ⟨cell, hcell, hrest⟩
  | _ :: b :: as, _, t, ⟨_, _, _, hrest⟩, ht =>
    hrest.last_next (by simpa [List.getLast?_cons_cons] using ht)

/-- A path survives every change outside its cells. -/
theorem Path.congr {h h' : Heap β} : ∀ {as : List Nat} {c : Option Nat}, h.Path c as →
    (∀ a ∈ as, h'.cells[a]? = h.cells[a]?) → h'.Path c as
  | [], _, hc, _ => hc
  | a :: _, _, ⟨hc, cell, hcell, hrest⟩, h' =>
    ⟨hc, cell, (h' a (by simp)).trans hcell, hrest.congr
      fun b hb => h' b (List.mem_cons_of_mem _ hb)⟩

/-- Linking the last cell of a path to the start of another joins the two. -/
theorem Path.link {h h' : Heap β} {bs : List Nat} {b t : Nat} :
    ∀ {as : List Nat} {c : Option Nat}, h.Path c as → as.getLast? = some t →
      (∃ cell, h'.cells[t]? = some cell ∧ cell.next = some b) →
      (∀ a ∈ as, a ≠ t → h'.cells[a]? = h.cells[a]?) → h'.Path (some b) bs → h'.Path c (as ++ bs)
  | [], _, _, ht, _, _, _ => by simp at ht
  | [a], _, ⟨hc, _⟩, ht, ⟨cell, hcell, hnext⟩, _, hb => by
    obtain rfl : a = t := by simpa using ht
    exact ⟨hc, cell, hcell, hnext ▸ hb⟩
  | a :: a' :: as, c, hp@⟨hc, cell, hcell, hrest⟩, ht, hlink, hkeep, hb => by
    have hlast : (a' :: as).getLast? = some t := by simpa [List.getLast?_cons_cons] using ht
    have hne : a ≠ t := by
      rintro rfl
      obtain ⟨cell', hcell', hnone⟩ := hrest.last_next hlast
      rw [hcell] at hcell'
      cases hcell'
      rw [hrest.1] at hnone
      cases hnone
    exact ⟨hc, cell, (hkeep a (by simp) hne).trans hcell,
      hrest.link hlast hlink (fun x hx => hkeep x (List.mem_cons_of_mem _ hx)) hb⟩

theorem contents_append (h : Heap β) (as bs : List Nat) :
    h.contents (as ++ bs) = h.contents as ++ h.contents bs := List.filterMap_append

theorem contents_congr {h h' : Heap β} {as : List Nat}
    (hdata : ∀ a ∈ as, (h'.cells[a]?).map Cell.data = (h.cells[a]?).map Cell.data) :
    h'.contents as = h.contents as := by
  induction as with
  | nil => rfl
  | cons a as ih =>
    simp only [contents, List.filterMap_cons] at ih ⊢
    rw [hdata a (by simp), ih fun b hb => hdata b (List.mem_cons_of_mem _ hb)]

/-! ### Lists -/

/-- `l` is a list whose cells are `as`, with a header that knows its last cell. -/
def Holds (h : Heap β) : ListPtr → List Nat → Prop
  | none, as => as = []
  | some p, as => ∃ list, h.lists[p]? = some list ∧ h.Path (some list.head) as ∧
      as.getLast? = some list.tail

theorem Holds.lt {h : Heap β} {l : ListPtr} {as : List Nat} (hl : h.Holds l as) :
    ∀ a ∈ as, a < h.cells.length := by
  cases l with
  | none => cases hl; simp
  | some p =>
    obtain ⟨_, _, hp, _⟩ := hl
    exact hp.lt

theorem Holds.ptr_lt {h : Heap β} {p : Nat} {as : List Nat} (hl : h.Holds (some p) as) :
    p < h.lists.length := by
  obtain ⟨_, hlist, _⟩ := hl
  exact (List.getElem?_eq_some_iff.mp hlist).1

theorem Holds.ne_nil {h : Heap β} {p : Nat} {as : List Nat} (hl : h.Holds (some p) as) :
    as ≠ [] := by
  obtain ⟨_, _, _, hlast⟩ := hl
  rintro rfl
  simp at hlast

theorem Holds.eq_none {h : Heap β} {l : ListPtr} (hl : h.Holds l []) : l = none := by
  cases l with
  | none => rfl
  | some p => exact absurd rfl hl.ne_nil

theorem Holds.foreach {h : Heap β} {l : ListPtr} {as : List Nat} (hl : h.Holds l as) :
    h.foreach l = some (h.contents as) := by
  cases l with
  | none => cases hl; rfl
  | some p =>
    obtain ⟨list, hlist, hp, _⟩ := hl
    simp [Heap.foreach, hlist, hp.chain hp.length_le]

/-- A walk that has no way out of `S` never ends. -/
theorem chain_eq_none {h : Heap β} {S : Nat → Prop}
    (hS : ∀ a, S a → ∃ cell n, h.cells[a]? = some cell ∧ cell.next = some n ∧ S n) :
    ∀ {fuel a : Nat}, S a → h.chain fuel (some a) = none
  | 0, _, _ => rfl
  | fuel + 1, a, ha => by
    obtain ⟨cell, n, hcell, hnext, hn⟩ := hS a ha
    simp [Heap.chain, hcell, hnext, chain_eq_none hS hn]

theorem Path.next_mem {h : Heap β} {t : Nat} {ys : List Nat} : ∀ {xs : List Nat} {c : Option Nat},
    h.Path c (xs ++ t :: ys) →
    ∀ a ∈ xs, ∃ cell n, h.cells[a]? = some cell ∧ cell.next = some n ∧ n ∈ xs ++ [t]
  | [], _, _, _, ha => absurd ha List.not_mem_nil
  | x :: xs, c, ⟨_, cell, hcell, hrest⟩, a, ha => by
    rcases List.mem_cons.mp ha with rfl | ha
    · cases xs with
      | nil => exact ⟨cell, t, hcell, hrest.1, by simp⟩
      | cons b xs => exact ⟨cell, b, hcell, hrest.1, by simp⟩
    · obtain ⟨cell', n, hcell', hnext, hn⟩ := hrest.next_mem a ha
      exact ⟨cell', n, hcell', hnext, List.mem_cons_of_mem _ hn⟩

/-- A list with a cell that is linked back to the first one has no end. -/
theorem Holds.foreach_linkBack {h h' : Heap β} {p t : Nat} {as : List Nat} {list : Header}
    (hl : h.Holds (some p) as) (hlist : h.lists[p]? = some list)
    (hlist' : h'.lists[p]? = some list) (ht : t ∈ as)
    (hkeep : ∀ a ∈ as, a ≠ t → h'.cells[a]? = h.cells[a]?)
    (hlink : ∃ cell, h'.cells[t]? = some cell ∧ cell.next = some list.head) :
    h'.foreach (some p) = none := by
  obtain ⟨list0, hlist0, hp, _⟩ := hl
  obtain rfl : list0 = list := Option.some.inj (hlist0.symm.trans hlist)
  obtain ⟨xs, ys, rfl⟩ := List.append_of_mem ht
  have hhead : list0.head ∈ xs ++ [t] := by
    cases xs with
    | nil => exact List.mem_singleton.mpr (Option.some.inj hp.1)
    | cons x xs => exact List.mem_cons.mpr (.inl (Option.some.inj hp.1))
  -- the cells up to `t` lead to each other only
  have hS : ∀ a, a ∈ xs ++ [t] →
      ∃ cell n, h'.cells[a]? = some cell ∧ cell.next = some n ∧ n ∈ xs ++ [t] := by
    intro a ha
    by_cases hat : a = t
    · obtain ⟨cell, hcell, hnext⟩ := hlink
      exact ⟨cell, _, hat ▸ hcell, hnext, hhead⟩
    · have hxs : a ∈ xs := by simpa [hat] using ha
      obtain ⟨cell, n, hcell, hnext, hn⟩ := hp.next_mem a hxs
      exact ⟨cell, n, (hkeep a (List.mem_append_left _ hxs) hat).trans hcell, hnext, hn⟩
  simp [Heap.foreach, hlist', chain_eq_none hS hhead]

/-! ### Frames -/

/-- `h'` extends `h`: it has all of its cells and headers, with the same data and the same first
cells, and no other change than to the cells in `C` and the headers in `L`. -/
structure Frame (C L : Nat → Prop) (h h' : Heap β) : Prop where
  cells_le : h.cells.length ≤ h'.cells.length
  lists_le : h.lists.length ≤ h'.lists.length
  cell : ∀ c < h.cells.length, ¬C c → h'.cells[c]? = h.cells[c]?
  data : ∀ c < h.cells.length, (h'.cells[c]?).map Cell.data = (h.cells[c]?).map Cell.data
  header : ∀ p < h.lists.length, ¬L p → h'.lists[p]? = h.lists[p]?
  head : ∀ p < h.lists.length, (h'.lists[p]?).map Header.head = (h.lists[p]?).map Header.head

namespace Frame

variable {C C' L L' : Nat → Prop} {h h1 h2 : Heap β}

theorem refl (C L : Nat → Prop) (h : Heap β) : Frame C L h h :=
  ⟨Nat.le_refl _, Nat.le_refl _, fun _ _ _ => rfl, fun _ _ => rfl, fun _ _ _ => rfl, fun _ _ => rfl⟩

/-- Two steps in a row; what the second touches beyond `h` is new. -/
theorem trans (f1 : Frame C L h h1) (f2 : Frame C' L' h1 h2)
    (hC : ∀ c < h.cells.length, C' c → C c) (hL : ∀ p < h.lists.length, L' p → L p) :
    Frame C L h h2 where
  cells_le := Nat.le_trans f1.cells_le f2.cells_le
  lists_le := Nat.le_trans f1.lists_le f2.lists_le
  cell c hc hn := (f2.cell c (Nat.lt_of_lt_of_le hc f1.cells_le) fun h' => hn (hC c hc h')).trans
    (f1.cell c hc hn)
  data c hc := (f2.data c (Nat.lt_of_lt_of_le hc f1.cells_le)).trans (f1.data c hc)
  header p hp hn := (f2.header p (Nat.lt_of_lt_of_le hp f1.lists_le)
    fun h' => hn (hL p hp h')).trans
    (f1.header p hp hn)
  head p hp := (f2.head p (Nat.lt_of_lt_of_le hp f1.lists_le)).trans (f1.head p hp)

theorem mono (f : Frame C L h h1) (hC : ∀ c < h.cells.length, C c → C' c)
    (hL : ∀ p < h.lists.length, L p → L' p) : Frame C' L' h h1 where
  cells_le := f.cells_le
  lists_le := f.lists_le
  cell c hc hn := f.cell c hc fun h' => hn (hC c hc h')
  data := f.data
  header p hp hn := f.header p hp fun h' => hn (hL p hp h')
  head := f.head

theorem contents (f : Frame C L h h1) {as : List Nat} (has : ∀ a ∈ as, a < h.cells.length) :
    h1.contents as = h.contents as :=
  contents_congr fun a ha => f.data a (has a ha)

theorem path (f : Frame C L h h1) {c : Option Nat} {as : List Nat} (hp : h.Path c as)
    (hC : ∀ a ∈ as, ¬C a) : h1.Path c as :=
  hp.congr fun a ha => f.cell a (hp.lt a ha) (hC a ha)

/-- A list whose cells and header are not touched stays as it is. -/
theorem holds (f : Frame C L h h1) {l : ListPtr} {as : List Nat} (hl : h.Holds l as)
    (hC : ∀ a ∈ as, ¬C a) (hL : ∀ p, l = some p → ¬L p) : h1.Holds l as := by
  cases l with
  | none => exact hl
  | some p =>
    obtain ⟨list, hlist, hp, hlast⟩ := hl
    have hlt := (List.getElem?_eq_some_iff.mp hlist).1
    exact ⟨list, (f.header p hlt (hL p rfl)).trans hlist, f.path hp hC, hlast⟩

end Frame

/-! ### The operations -/

/-- The cell that `as` ends with. -/
def IsLast (as : List Nat) (c : Nat) : Prop := as.getLast? = some c

theorem isLast_append_right {as bs : List Nat} {c : Nat} (hb : bs ≠ []) :
    IsLast (as ++ bs) c ↔ IsLast bs c := by
  simp [IsLast, List.getLast?_append_of_ne_nil _ hb]

theorem IsLast.mem {as : List Nat} {c : Nat} (h : IsLast as c) : c ∈ as :=
  List.mem_of_getLast? h

/-- Redirecting the successor of one cell, replacing one header by another with the same first
cell, and allocating cells changes nothing else. -/
theorem frame_relink {h : Heap β} {p t : Nat} {list : Header} {tail : Cell β} (list' : Header)
    (hlist : h.lists[p]? = some list) (htail : h.cells[t]? = some tail)
    (hhead : list'.head = list.head) (next : Option Nat) (new : List (Cell β)) :
    Frame (fun c => c = t) (fun q => q = p) h
      ⟨h.cells.set t { tail with next } ++ new, h.lists.set p list'⟩ where
  cells_le := by simp
  lists_le := by simp
  cell c hc hn := by
    rw [List.getElem?_append_left (by simpa using hc), List.getElem?_set_ne fun e => hn e.symm]
  data c hc := by
    rw [List.getElem?_append_left (by simpa using hc), List.getElem?_set]
    split
    · next e => rw [← e, htail]; simp [(List.getElem?_eq_some_iff.mp htail).1]
    · rfl
  header q _ hn := List.getElem?_set_ne fun e => hn e.symm
  head q _ := by
    rw [List.getElem?_set]
    split
    · next e => rw [← e, hlist]; simp [(List.getElem?_eq_some_iff.mp hlist).1, hhead]
    · rfl

theorem lappend_spec {h : Heap β} {l : ListPtr} {as : List Nat} (hl : h.Holds l as) (datum : β) :
    ∃ h' p, h.lappend l datum = some (h', some p) ∧ h'.Holds (some p) (as ++ [h.cells.length]) ∧
      h'.contents [h.cells.length] = [datum] ∧ (l = some p ∨ l = none ∧ p = h.lists.length) ∧
      Frame (IsLast as) (fun q => l = some q) h h' := by
  cases l with
  | none =>
    cases hl
    refine ⟨_, _, rfl, ⟨⟨1, h.cells.length, h.cells.length⟩, by simp, ⟨rfl, ⟨datum, none⟩, by simp,
      rfl⟩, by simp⟩, by simp [contents], .inr ⟨rfl, rfl⟩, by simp, by simp,
      fun c hc _ => List.getElem?_append_left hc, fun c hc => ?_,
      fun p hp _ => List.getElem?_append_left hp, fun p hp => ?_⟩
    · rw [List.getElem?_append_left hc]
    · rw [List.getElem?_append_left hp]
  | some p =>
    obtain ⟨list, hlist, hp, hlast⟩ := hl
    obtain ⟨tail, htail, hnone⟩ := hp.last_next hlast
    have hlt := (List.getElem?_eq_some_iff.mp htail).1
    have hplt := (List.getElem?_eq_some_iff.mp hlist).1
    have f := frame_relink { list with length := list.length + 1, tail := h.cells.length }
      hlist htail rfl (some h.cells.length) [⟨datum, none⟩]
    refine ⟨_, p, by simp only [lappend, hlist, htail, Option.bind_eq_bind, Option.bind_some],
      ⟨_, List.getElem?_set_self hplt, ?_, by simp⟩, by simp [contents], .inl rfl,
      f.mono (fun c _ e => e ▸ hlast) fun q _ e => e ▸ rfl⟩
    refine hp.link hlast ⟨{ tail with next := some h.cells.length }, ?_, rfl⟩
      (fun a ha hne => f.cell a (hp.lt a ha) hne) ⟨rfl, ⟨datum, none⟩, by simp, rfl⟩
    rw [List.getElem?_append_left (by simpa using hlt), List.getElem?_set_self hlt]

theorem listConcat_spec {h : Heap β} {l m : ListPtr} {as bs : List Nat} (hl : h.Holds l as)
    (hm : h.Holds m bs) (hdisj : as.Disjoint bs) (hne : ∀ p, l = some p → m ≠ some p) :
    ∃ h', h.listConcat l m = some (h', l.or m) ∧ h'.Holds (l.or m) (as ++ bs) ∧
      h'.cells.length = h.cells.length ∧ h'.lists.length = h.lists.length ∧
      Frame (fun a => bs ≠ [] ∧ IsLast as a) (fun q => l = some q) h h' := by
  cases l with
  | none =>
    cases hl
    exact ⟨h, by simp [listConcat], by simpa using hm, rfl, rfl, Frame.refl _ _ _⟩
  | some p =>
    cases m with
    | none =>
      cases hm
      exact ⟨h, by simp [listConcat], by simpa using hl, rfl, rfl, Frame.refl _ _ _⟩
    | some q =>
      have hpq : p ≠ q := fun e => hne p rfl (e ▸ rfl)
      obtain ⟨l1, hl1, hp, hlast⟩ := hl
      obtain ⟨l2, hl2, hq, hlast2⟩ := hm
      obtain ⟨tail, htail, hnone⟩ := hp.last_next hlast
      have hlt := (List.getElem?_eq_some_iff.mp htail).1
      have hplt := (List.getElem?_eq_some_iff.mp hl1).1
      have f := frame_relink ⟨l1.length + l2.length, l1.head, l2.tail⟩ hl1 htail rfl
        (some l2.head) []
      rw [List.append_nil] at f
      have hb : bs ≠ [] := by rintro rfl; simp at hlast2
      refine ⟨_, by simp only [listConcat, hpq, if_false, hl1, hl2, htail, Option.bind_eq_bind,
        Option.bind_some, Option.some_or],
        ⟨_, List.getElem?_set_self hplt, ?_, ?_⟩, by simp, by simp,
        f.mono (fun c _ e => ⟨hb, e ▸ hlast⟩) fun r _ e => e ▸ rfl⟩
      · refine hp.link hlast ⟨{ tail with next := some l2.head }, List.getElem?_set_self hlt, rfl⟩
          (fun a ha hne => f.cell a (hp.lt a ha) hne) (f.path hq fun b hb e => ?_)
        exact hdisj (IsLast.mem hlast) (e ▸ hb)
      · rw [List.getLast?_append_of_ne_nil _ hb, hlast2]

/-- A list built element by element from `NIL` has new cells and a new header only. -/
theorem lappendAll_spec {h : Heap β} (data : List β) :
    ∃ h' r as, h.lappendAll none data = some (h', r) ∧ h'.Holds r as ∧ h'.contents as = data ∧
      (∀ a ∈ as, h.cells.length ≤ a) ∧ (∀ p, r = some p → h.lists.length ≤ p) ∧
      Frame (fun _ => False) (fun _ => False) h h' := by
  suffices hgen : ∀ (data : List β) (h1 : Heap β) (l : ListPtr) (as : List Nat), h1.Holds l as →
      (∀ a ∈ as, h.cells.length ≤ a) → (∀ p, l = some p → h.lists.length ≤ p) →
      Frame (fun _ => False) (fun _ => False) h h1 →
      ∃ h' r bs, h1.lappendAll l data = some (h', r) ∧ h'.Holds r (as ++ bs) ∧
        h'.contents (as ++ bs) = h1.contents as ++ data ∧ (∀ a ∈ as ++ bs, h.cells.length ≤ a) ∧
        (∀ p, r = some p → h.lists.length ≤ p) ∧ Frame (fun _ => False) (fun _ => False) h h' by
    obtain ⟨h', r, bs, h1, h2, h3, h4, h5, h6⟩ :=
      hgen data h none [] rfl (by simp) (by simp) (Frame.refl _ _ _)
    exact ⟨h', r, bs, h1, by simpa using h2, by simpa [contents] using h3, by simpa using h4, h5,
      h6⟩
  intro data
  induction data with
  | nil => exact fun h1 l as hl hnew hptr f =>
    ⟨h1, l, [], rfl, by simpa using hl, by simp, by simpa using hnew, hptr, f⟩
  | cons datum data ih =>
    intro h1 l as hl hnew hptr f
    obtain ⟨h2, p, hrun, hl2, hdat, hp, f2⟩ := lappend_spec hl datum
    have hptr2 : ∀ q, some p = some q → h.lists.length ≤ q := by
      rintro q ⟨⟩
      rcases hp with hp | ⟨_, rfl⟩
      · exact hptr p hp
      · exact f.lists_le
    have hnew2 : ∀ a ∈ as ++ [h1.cells.length], h.cells.length ≤ a := by
      intro a ha
      rcases List.mem_append.mp ha with ha | ha
      · exact hnew a ha
      · rw [List.mem_singleton.mp ha]
        exact f.cells_le
    have f3 : Frame (fun _ => False) (fun _ => False) h h2 :=
      f.trans f2 (fun c hc hlast => absurd (hnew c hlast.mem) (by omega))
        (fun q hq e => absurd (hptr q e) (by omega))
    obtain ⟨h', r, bs, h3, h4, h5, h6, h7, h8⟩ := ih h2 (some p) _ hl2 hnew2 hptr2 f3
    refine ⟨h', r, h1.cells.length :: bs, by simp [lappendAll, hrun, h3], by simpa using h4, ?_,
      by simpa using h6, h7, h8⟩
    have hold : h2.contents (as ++ [h1.cells.length]) = h1.contents as ++ [datum] := by
      rw [contents_append, hdat, f2.contents hl.lt]
    rw [hold] at h5
    simpa using h5

end Heap

end CellList
