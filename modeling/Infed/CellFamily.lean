import Infed.CellList

/-! Families of lists without a cell in common.  In such a family `list_concat` joins two lists and
leaves the others as they are, and lists are the same exactly when their pointers are. -/

namespace CellList.Heap

variable {β : Type} {h h' : Heap β} {l m : ListPtr} {as bs : List Nat}

theorem Holds.unique (hl : h.Holds l as) (hm : h.Holds l bs) : as = bs := by
  cases l with
  | none => exact hl.trans hm.symm
  | some p =>
    obtain ⟨list, hlist, hpath, _⟩ := hl
    obtain ⟨list', hlist', hpath', _⟩ := hm
    cases hlist.symm.trans hlist'
    exact hpath.unique hpath'

theorem Holds.ptr_ne {p : Nat} (hl : h.Holds (some p) as) (hm : h.Holds m bs)
    (hdisj : as.Disjoint bs) : m ≠ some p := by
  rintro rfl
  obtain ⟨a, ha⟩ := List.exists_mem_of_ne_nil _ hl.ne_nil
  exact hdisj ha (hl.unique hm ▸ ha)

/-- Some elements that fail a test, and those that pass it. -/
theorem subperm_filter {γ : Type} {l xs : List γ} {p : γ → Bool} {z : γ} (hnodup : xs.Nodup)
    (hxs : ∀ x ∈ xs, x = z ∨ x ∈ l ∧ p x = false) : (xs ++ l.filter p).Subperm (z :: l) := by
  have hsub : xs.Subperm (z :: l.filter (!p ·)) := by
    refine List.subperm_of_subset hnodup fun x hx => ?_
    rcases hxs x hx with rfl | ⟨hmem, hp⟩
    · exact List.mem_cons_self
    · exact List.mem_cons_of_mem _ (List.mem_filter.mpr ⟨hmem, by simpa using hp⟩)
  have hperm : (z :: l.filter (!p ·) ++ l.filter p).Perm (z :: l) :=
    (List.perm_append_comm.trans (List.filter_append_perm p l)).cons z
  exact ((List.subperm_append_right _).mpr hsub).trans hperm.subperm

/-- Each pointer holds its cells, and no cell is in two of the lists. -/
structure Apart (h : Heap β) (parts : List (ListPtr × List Nat)) : Prop where
  holds : ∀ x ∈ parts, h.Holds x.1 x.2
  disjoint : parts.Pairwise fun x y => x.2.Disjoint y.2

namespace Apart

variable {parts rest : List (ListPtr × List Nat)}

theorem subperm (a : h.Apart parts) (hsub : rest.Subperm parts) : h.Apart rest := by
  refine ⟨fun x hx => a.holds x (hsub.subset hx), ?_⟩
  obtain ⟨l, hperm, hsub⟩ := hsub
  refine (hperm.pairwise_iff fun hxy => ?_).mp (a.disjoint.sublist hsub)
  exact fun _ hy hx => hxy hx hy

theorem eq_of_ptr (a : h.Apart parts) {x y : ListPtr × List Nat} (hx : x ∈ parts)
    (hy : y ∈ parts) (hptr : x.1 = y.1) : x = y := by
  have hcells := (a.holds x hx).unique (hptr ▸ a.holds y hy)
  exact Prod.ext hptr hcells

/-- NIL is a list without cells. -/
theorem null (a : h.Apart parts) : h.Apart ((none, []) :: parts) :=
  ⟨List.forall_mem_cons.mpr ⟨rfl, a.holds⟩,
    List.pairwise_cons.mpr ⟨fun _ _ => List.disjoint_nil_left _, a.disjoint⟩⟩

/-- A new list of one element. -/
theorem lappend (a : h.Apart parts) (datum : β) :
    ∃ h' p, h.lappend none datum = some (h', some p) ∧
      h'.Apart ((some p, [h.cells.length]) :: parts) ∧ h'.contents [h.cells.length] = [datum] ∧
      ∀ x ∈ parts, h'.contents x.2 = h.contents x.2 := by
  obtain ⟨h', p, hrun, hholds, hdatum, _, f⟩ := h.lappend_spec (l := none) rfl datum
  have hnothing : ∀ c, ¬IsLast [] c := fun c hc => by cases hc
  refine ⟨h', p, hrun, ⟨List.forall_mem_cons.mpr ⟨hholds, fun x hx => ?_⟩,
    List.pairwise_cons.mpr ⟨fun x hx c hc hc' => ?_, a.disjoint⟩⟩, hdatum,
    fun x hx => f.contents (a.holds x hx).lt⟩
  · exact f.holds (a.holds x hx) (fun c _ => hnothing c) (by simp)
  · have hlt := (a.holds x hx).lt c hc'
    rw [List.mem_singleton.mp hc] at hlt
    exact Nat.lt_irrefl _ hlt

/-- The second list stays as it is, too, but its cells are now also in the first one. -/
theorem listConcat (a : h.Apart ((l, as) :: (m, bs) :: rest)) :
    ∃ h', h.listConcat l m = some (h', l.or m) ∧ h'.Apart ((l.or m, as ++ bs) :: rest) ∧
      h'.Holds m bs ∧ ∀ cs, (∀ c ∈ cs, c < h.cells.length) → h'.contents cs = h.contents cs := by
  have hl : h.Holds l as := a.holds _ List.mem_cons_self
  have hm : h.Holds m bs := a.holds _ (List.mem_cons_of_mem _ List.mem_cons_self)
  obtain ⟨hfirst, hrest⟩ := List.pairwise_cons.mp a.disjoint
  obtain ⟨hsecond, hrest⟩ := List.pairwise_cons.mp hrest
  have hdisj : as.Disjoint bs := hfirst _ List.mem_cons_self
  have hne : ∀ p, l = some p → m ≠ some p := by
    rintro p rfl
    exact hl.ptr_ne hm hdisj
  obtain ⟨h', hrun, hholds, _, _, f⟩ := listConcat_spec hl hm hdisj hne
  have hkeep : ∀ {m' : ListPtr} {cs : List Nat}, h.Holds m' cs → as.Disjoint cs →
      h'.Holds m' cs := by
    intro m' cs hm' hapart
    refine f.holds hm' (fun c hc hlast => hapart hlast.2.mem hc) fun p hp hlp => ?_
    subst hlp
    exact hl.ptr_ne hm' hapart hp
  refine ⟨h', hrun, ⟨List.forall_mem_cons.mpr ⟨hholds, fun x hx => ?_⟩, ?_⟩, hkeep hm hdisj,
    fun cs hcs => f.contents hcs⟩
  · exact hkeep (a.holds x (List.mem_cons_of_mem _ (List.mem_cons_of_mem _ hx)))
      (hfirst x (List.mem_cons_of_mem _ hx))
  · refine List.pairwise_cons.mpr ⟨fun x hx => ?_, hrest⟩
    exact List.disjoint_append_left.mpr ⟨hfirst x (List.mem_cons_of_mem _ hx), hsecond x hx⟩

end Apart

end CellList.Heap
