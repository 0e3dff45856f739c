import Infed.CellLater
import Mathlib.Logic.Function.Basic

/-! Two lists that are made of segments without repetition.  The elements of the segment that is
being collected are appended under a header of its own, also after it has been linked to one of the
lists, whose header then no longer knows the last cell: what is linked to that list next cuts the
segment short.  Either way a key occurs in a list at most once for each of its segments. -/

namespace CellList.Heap

variable {β κ : Type} {h h' : Heap β} {l m : ListPtr} {as bs xs ys : List Nat}

/-- Following `next` from the first cell of `l` passes exactly the cells `as`, among them the one
that the header has for the last. -/
def Passes (h : Heap β) : ListPtr → List Nat → Prop
  | none, as => as = []
  | some p, as => ∃ list, h.lists[p]? = some list ∧ h.Path (some list.head) as ∧ list.tail ∈ as

theorem Holds.passes (hl : h.Holds l as) : h.Passes l as := by
  cases l with
  | none => exact hl
  | some p =>
    obtain ⟨list, hlist, hp, hlast⟩ := hl
    exact ⟨list, hlist, hp, List.mem_of_getLast? hlast⟩

theorem Passes.reads (hl : h.Passes l as) : h.Reads l as := by
  cases l with
  | none => exact hl
  | some p =>
    obtain ⟨list, hlist, hp, _⟩ := hl
    exact ⟨list, hlist, hp⟩

theorem Passes.unique (hl : h.Passes l as) (hl' : h.Passes l bs) : as = bs := by
  cases l with
  | none => exact Eq.trans hl (Eq.symm hl')
  | some p =>
    obtain ⟨list, hlist, hp, _⟩ := hl
    obtain ⟨list', hlist', hp', _⟩ := hl'
    rw [hlist] at hlist'
    cases hlist'
    exact hp.unique hp'

theorem Passes.ne_nil {p : Nat} (hl : h.Passes (some p) as) : as ≠ [] := by
  obtain ⟨_, _, _, htail⟩ := hl
  exact List.ne_nil_of_mem htail

/-- Lists without common cells have different headers. -/
theorem Passes.ne_of_disjoint (hl : h.Passes l as) (hm : h.Passes m bs) (hdisj : as.Disjoint bs)
    {p : Nat} (hp : m = some p) : l ≠ some p := by
  rintro rfl
  subst hp
  obtain rfl := hl.unique hm
  obtain ⟨a, ha⟩ := List.exists_mem_of_ne_nil _ hl.ne_nil
  exact hdisj ha ha

theorem Frame.passes {C L : Nat → Prop} (f : Frame C L h h') (hl : h.Passes l as)
    (hC : ∀ a ∈ as, ¬C a) (hL : ∀ p, l = some p → ¬L p) : h'.Passes l as := by
  cases l with
  | none => exact hl
  | some p =>
    obtain ⟨list, hlist, hp, htail⟩ := hl
    have hlt := (List.getElem?_eq_some_iff.mp hlist).1
    exact ⟨list, (f.header p hlt (hL p rfl)).trans hlist, f.path hp hC, htail⟩

/-- Linking any cell of a path to the start of another leaves the cells up to it. -/
theorem Path.relink {b t : Nat} : ∀ {xs : List Nat} {c : Option Nat}, h.Path c (xs ++ t :: ys) →
    (∃ cell, h'.cells[t]? = some cell ∧ cell.next = some b) →
    (∀ a ∈ xs, h'.cells[a]? = h.cells[a]?) → h'.Path (some b) bs → h'.Path c (xs ++ t :: bs)
  | [], _, ⟨hc, _⟩, ⟨cell, hcell, hnext⟩, _, hb => ⟨hc, cell, hcell, hnext ▸ hb⟩
  | _ :: _, _, ⟨hc, cell, hcell, hrest⟩, hlink, hkeep, hb =>
    ⟨hc, cell, (hkeep _ List.mem_cons_self).trans hcell,
      hrest.relink hlink (fun a ha => hkeep a (List.mem_cons_of_mem _ ha)) hb⟩

/-- The successor of a cell on a path. -/
theorem Path.next_eq {t b : Nat} {c : Option Nat} (hp : h.Path c (xs ++ t :: b :: ys)) :
    ∃ cell, h.cells[t]? = some cell ∧ cell.next = some b := by
  obtain ⟨_, cell, hcell, hrest⟩ := hp.suffix xs
  exact ⟨cell, hcell, hrest.1⟩

/-- A list that ends with the cells of another grows with it. -/
theorem Passes.lappend {n : Nat} {r : ListPtr} (hl : h.Passes l (xs ++ as)) (hm : h.Holds m as)
    (hne : as ≠ []) (hr : h'.Holds r (as ++ [n])) (hsame : ∀ p, m = some p → r = some p)
    (f : Frame (IsLast as) (fun q => m = some q) h h') : h'.Passes l (xs ++ (as ++ [n])) := by
  cases l with
  | none => exact absurd (List.append_eq_nil_iff.mp hl).2 hne
  | some p =>
    by_cases hmp : m = some p
    · -- it is the same list
      subst hmp
      have hxs : xs = [] := List.append_left_eq_self.mp (hl.unique hm.passes)
      rw [hxs, List.nil_append, ← hsame p rfl]
      exact hr.passes
    · obtain ⟨list, hlist, hp, htail⟩ := hl
      have hlt := (List.getElem?_eq_some_iff.mp hlist).1
      obtain ⟨zs, t, rfl⟩ := List.eq_nil_or_concat' as |>.resolve_left hne
      have hgrown := hr.path (by simp)
      have hnew : h'.Path (some n) [n] := hgrown.suffix (zs ++ [t])
      rw [List.append_assoc] at hgrown
      rw [← List.append_assoc] at hp
      have hkeep : ∀ a ∈ xs ++ zs, h'.cells[a]? = h.cells[a]? := by
        intro a ha
        refine f.cell a (hp.lt a (List.mem_append_left _ ha)) fun hlast => ?_
        have hat : t = a := by simpa [IsLast] using hlast
        exact (List.nodup_append.mp hp.nodup).2.2 a ha t List.mem_cons_self hat.symm
      have hjoin : h'.Path (some list.head) ((xs ++ zs) ++ t :: [n]) :=
        hp.relink hgrown.next_eq hkeep hnew
      refine ⟨list, (f.header p hlt hmp).trans hlist, by simpa using hjoin, ?_⟩
      rw [← List.append_assoc]
      exact List.mem_append_left _ htail

/-- Linking a list to another, which need not know its last cell, cuts it short after the cell that
it has for the last. -/
theorem Passes.listConcat {p q : Nat} {r : ListPtr} (hl : h.Passes (some p) as)
    (hm : h.Holds (some q) bs) (hdisj : as.Disjoint bs)
    (hrun : h.listConcat (some p) (some q) = some (h', r)) :
    ∃ xs t ys, as = xs ++ t :: ys ∧ r = some p ∧ h'.Passes (some p) (xs ++ t :: bs) ∧
      Frame (fun a => a = t) (fun r => r = p) h h' := by
  obtain ⟨l1, hl1, hp, htail⟩ := hl
  obtain ⟨l2, hl2, hq, hlast2⟩ := hm
  obtain ⟨xs, ys, rfl⟩ := List.append_of_mem htail
  have htlt := hp.lt l1.tail htail
  have hplt := (List.getElem?_eq_some_iff.mp hl1).1
  have htailCell := List.getElem?_eq_getElem htlt
  rw [Heap.listConcat] at hrun
  split at hrun
  · cases hrun
  · simp only [hl1, hl2, htailCell, Option.bind_eq_bind, Option.bind_some, Option.some.injEq,
      Prod.mk.injEq] at hrun
    obtain ⟨rfl, rfl⟩ := hrun
    have f := frame_relink ⟨l1.length + l2.length, l1.head, l2.tail⟩ hl1 htailCell rfl
      (some l2.head) []
    rw [List.append_nil] at f
    have hkeep : ∀ a ∈ xs, a ≠ l1.tail := fun a ha hat =>
      (List.nodup_append.mp hp.nodup).2.2 a ha _ List.mem_cons_self hat
    refine ⟨xs, l1.tail, ys, rfl, rfl, ⟨_, List.getElem?_set_self hplt, ?_, ?_⟩, f⟩
    · refine hp.relink ⟨_, List.getElem?_set_self htlt, rfl⟩
        (fun a ha => f.cell a (hp.lt a (List.mem_append_left _ ha)) (hkeep a ha))
        (f.path hq fun b hb hbt => ?_)
      exact hdisj htail (hbt ▸ hb)
    · exact List.mem_append_right _ (List.mem_cons_of_mem _ (List.mem_of_getLast? hlast2))

/-! ### Segments -/

/-- A list cut short after a cell is made of as many segments at most, each a part of one before. -/
theorem exists_cut {t : Nat} : ∀ {segs : List (List Nat)} {xs : List Nat},
    segs.flatten = xs ++ t :: ys → ∃ segs' : List (List Nat), segs'.flatten = xs ++ [t] ∧
      segs'.length ≤ segs.length ∧ ∀ seg' ∈ segs', ∃ seg ∈ segs, seg'.Sublist seg
  | [], _, hsegs => by simp at hsegs
  | seg :: segs, xs, hsegs => by
    -- the cut is in a later segment, or in this one
    have hlater : ∀ zs, segs.flatten = zs ++ t :: ys → ∃ segs' : List (List Nat),
        segs'.flatten = seg ++ zs ++ [t] ∧ segs'.length ≤ (seg :: segs).length ∧
        ∀ seg' ∈ segs', ∃ seg0 ∈ seg :: segs, seg'.Sublist seg0 := by
      intro zs hrest
      obtain ⟨segs', hflat, hlen, hsub⟩ := exists_cut hrest
      refine ⟨seg :: segs', by rw [List.flatten_cons, hflat, List.append_assoc],
        Nat.succ_le_succ hlen, List.forall_mem_cons.mpr ⟨⟨seg, List.mem_cons_self, .refl _⟩, ?_⟩⟩
      intro seg' hseg'
      obtain ⟨seg0, hmem, hsub0⟩ := hsub seg' hseg'
      exact ⟨seg0, List.mem_cons_of_mem _ hmem, hsub0⟩
    rw [List.flatten_cons] at hsegs
    rcases List.append_eq_append_iff.mp hsegs with ⟨zs, rfl, hrest⟩ | ⟨zs, rfl, hrest⟩
    · exact hlater zs hrest
    · cases zs with
      | nil => simpa using hlater [] (by simpa using hrest.symm)
      | cons z zs =>
        cases hrest
        refine ⟨[xs ++ [t]], by simp, by simp, List.forall_mem_singleton.mpr
          ⟨xs ++ t :: zs, List.mem_cons_self, ?_⟩⟩
        exact List.Sublist.append_left (List.singleton_sublist.mpr List.mem_cons_self) xs

/-- Two lists, made of segments, and the cells `is` of the segment that is being collected.  The
segment is the last one of a list, or of neither. -/
structure Gathered (key : β → κ) (h : Heap β) (lists : Bool → ListPtr) (current : ListPtr)
    (segs : Bool → List (List Nat)) (is : List Nat) (place : Option Bool) : Prop where
  passes : ∀ s, h.Passes (lists s) (segs s).flatten
  distinct : ∀ s, ∀ seg ∈ segs s, ((h.contents seg).map key).Nodup
  apart : ∀ s, (segs s).flatten.Disjoint (segs (!s)).flatten
  holds : h.Holds current is
  fresh : ((h.contents is).map key).Nodup
  away : ∀ s, place ≠ some s → is.Disjoint (segs s).flatten
  last : ∀ s, place = some s → is ≠ [] ∧ ∃ init, segs s = init ++ [is]

namespace Gathered

variable {key : β → κ} {lists : Bool → ListPtr} {current : ListPtr}
  {segs : Bool → List (List Nat)} {is : List Nat} {place : Option Bool}

theorem start (key : β → κ) (h : Heap β) :
    Gathered key h (fun _ => none) none (fun _ => []) [] none :=
  ⟨fun _ => rfl, by simp, by simp, rfl, List.nodup_nil, by simp, by simp⟩

/-- A new segment is begun. -/
theorem renew (g : Gathered key h lists current segs is place) :
    Gathered key h lists none segs [] none :=
  ⟨g.passes, g.distinct, g.apart, rfl, List.nodup_nil, by simp, by simp⟩

theorem lt (g : Gathered key h lists current segs is place) (s : Bool) :
    ∀ a ∈ (segs s).flatten, a < h.cells.length :=
  (g.passes s).reads.lt

theorem lappend (g : Gathered key h lists current segs is place) {datum : β} {r : ListPtr}
    (hnew : key datum ∉ (h.contents is).map key)
    (hrun : h.lappend current datum = some (h', r)) :
    ∃ segs' is', Gathered key h' lists r segs' is' place ∧
      ∀ s, (segs' s).length = (segs s).length := by
  obtain ⟨h1, p, hrun1, hholds, hdatum, hptr, f⟩ := lappend_spec g.holds datum
  obtain ⟨rfl, rfl⟩ := Prod.mk.inj (Option.some.inj (hrun.symm.trans hrun1))
  have hislt := g.holds.lt
  have hcontents : h'.contents (is ++ [h.cells.length]) = h.contents is ++ [datum] := by
    rw [contents_append, f.contents hislt, hdatum]
  have hgrown : ((h'.contents (is ++ [h.cells.length])).map key).Nodup := by
    rw [hcontents, List.map_append, List.nodup_append]
    refine ⟨g.fresh, by simp, fun k hk k' hk' heq => hnew ?_⟩
    rw [List.map_singleton, List.mem_singleton] at hk'
    exact hk' ▸ heq ▸ hk
  -- the segment is replaced where it is the last one
  let segs' : Bool → List (List Nat) := fun s =>
    if place = some s then (segs s).dropLast ++ [is ++ [h.cells.length]] else segs s
  have hother : ∀ s, place ≠ some s → segs' s = segs s := fun s hs => if_neg hs
  have hlast : ∀ s, place = some s → is ≠ [] ∧ ∃ init, segs s = init ++ [is] ∧
      segs' s = init ++ [is ++ [h.cells.length]] := by
    intro s hs
    obtain ⟨hne, init, hinit⟩ := g.last s hs
    exact ⟨hne, init, hinit, by simp [segs', hs, hinit]⟩
  have hmem : ∀ s, ∀ a ∈ (segs' s).flatten,
      a ∈ (segs s).flatten ∨ place = some s ∧ a = h.cells.length := by
    intro s a ha
    by_cases hs : place = some s
    · obtain ⟨_, init, hinit, hinit'⟩ := hlast s hs
      rw [hinit'] at ha
      rw [hinit]
      simp only [List.flatten_append, List.flatten_singleton, List.mem_append,
        List.mem_singleton] at ha ⊢
      tauto
    · exact .inl (hother s hs ▸ ha)
  refine ⟨segs', is ++ [h.cells.length], ⟨fun s => ?_, fun s seg hseg => ?_, fun s a ha hb => ?_,
    hholds, hgrown, fun s hs a ha hb => ?_, fun s hs => ?_⟩, fun s => ?_⟩
  · by_cases hs : place = some s
    · obtain ⟨hne, init, hinit, hinit'⟩ := hlast s hs
      have hpasses := g.passes s
      rw [hinit, List.flatten_append, List.flatten_singleton] at hpasses
      rw [hinit', List.flatten_append, List.flatten_singleton]
      refine hpasses.lappend g.holds hne hholds (fun q hq => ?_) f
      rcases hptr with hptr | ⟨hptr, _⟩
      · exact hptr.symm.trans hq
      · rw [hptr] at hq
        cases hq
    · rw [hother s hs]
      refine f.passes (g.passes s) (fun a ha hlast => g.away s hs (IsLast.mem hlast) ha)
        fun q hq hcurrent => ?_
      exact g.holds.passes.ne_of_disjoint (g.passes s) (g.away s hs) hq hcurrent
  · have hold : ∀ seg ∈ segs s, ((h'.contents seg).map key).Nodup := fun seg hseg => by
      rw [f.contents fun a ha => g.lt s a (List.mem_flatten.mpr ⟨seg, hseg, ha⟩)]
      exact g.distinct s seg hseg
    by_cases hs : place = some s
    · obtain ⟨_, init, hinit, hinit'⟩ := hlast s hs
      rw [hinit', List.mem_append, List.mem_singleton] at hseg
      rcases hseg with hseg | rfl
      · exact hold seg (hinit ▸ List.mem_append_left _ hseg)
      · exact hgrown
    · exact hold seg (hother s hs ▸ hseg)
  · rcases hmem s a ha with ha | ⟨hs, ha⟩ <;> rcases hmem _ a hb with hb | ⟨hs', hb⟩
    · exact g.apart s ha hb
    · exact Nat.lt_irrefl _ (hb ▸ g.lt s a ha)
    · exact Nat.lt_irrefl _ (ha ▸ g.lt _ a hb)
    · rw [hs] at hs'
      simp at hs'
  · rw [hother s hs] at hb
    rcases List.mem_append.mp ha with ha | ha
    · exact g.away s hs ha hb
    · rw [List.mem_singleton.mp ha] at hb
      exact Nat.lt_irrefl _ (g.lt s _ hb)
  · obtain ⟨_, init, _, hinit'⟩ := hlast s hs
    exact ⟨by simp, init, hinit'⟩
  · by_cases hs : place = some s
    · obtain ⟨_, init, hinit, hinit'⟩ := hlast s hs
      rw [hinit, hinit', List.length_append, List.length_append]
      rfl
    · rw [hother s hs]

/-- The segment becomes the last one of a list, of which parts of the segments before are left. -/
theorem link (g : Gathered key h lists current segs is none) {s : Bool} {r : ListPtr}
    {init : List (List Nat)} (hne : is ≠ [])
    (hcontents : ∀ seg, (∀ a ∈ seg, a < h.cells.length) → h'.contents seg = h.contents seg)
    (hinit : ∀ seg' ∈ init, ∃ seg ∈ segs s, seg'.Sublist seg)
    (hpasses : h'.Passes r (init.flatten ++ is))
    (hother : h'.Passes (lists (!s)) (segs (!s)).flatten) (hholds : h'.Holds current is) :
    Gathered key h' (Function.update lists s r) current (Function.update segs s (init ++ [is])) is
      (some s) := by
  have haway : ∀ s, is.Disjoint (segs s).flatten := fun s => g.away s (by simp)
  have hmem : ∀ a ∈ (init ++ [is]).flatten, a ∈ (segs s).flatten ∨ a ∈ is := by
    intro a ha
    rw [List.flatten_append, List.flatten_singleton, List.mem_append] at ha
    refine ha.imp_left fun ha => ?_
    obtain ⟨seg', hseg', ha⟩ := List.mem_flatten.mp ha
    obtain ⟨seg, hseg, hsub⟩ := hinit seg' hseg'
    exact List.mem_flatten.mpr ⟨seg, hseg, hsub.subset ha⟩
  have hapart : (init ++ [is]).flatten.Disjoint (segs (!s)).flatten := by
    intro a ha hb
    rcases hmem a ha with ha | ha
    · exact g.apart s ha hb
    · exact haway _ ha hb
  have hdistinct : ∀ s', ∀ seg ∈ segs s', ((h'.contents seg).map key).Nodup := by
    intro s' seg hseg
    rw [hcontents seg fun a ha => g.lt s' a (List.mem_flatten.mpr ⟨seg, hseg, ha⟩)]
    exact g.distinct s' seg hseg
  have hfresh : ((h'.contents is).map key).Nodup := by
    rw [hcontents is g.holds.lt]
    exact g.fresh
  have hupdate : ∀ s', s' = s ∨ s' = !s := fun s' => by cases s <;> cases s' <;> simp
  refine ⟨fun s' => ?_, fun s' seg hseg => ?_, fun s' => ?_, hholds, hfresh, fun s' hs' => ?_,
    fun s' hs' => ?_⟩
  · rcases hupdate s' with rfl | rfl
    · rw [Function.update_self, Function.update_self, List.flatten_append, List.flatten_singleton]
      exact hpasses
    · rw [Function.update_of_ne (by simp), Function.update_of_ne (by simp)]
      exact hother
  · rcases hupdate s' with rfl | rfl
    · rw [Function.update_self, List.mem_append, List.mem_singleton] at hseg
      rcases hseg with hseg | rfl
      · obtain ⟨seg0, hseg0, hsub⟩ := hinit seg hseg
        exact ((hsub.filterMap _).map key).nodup (hdistinct s' seg0 hseg0)
      · exact hfresh
    · rw [Function.update_of_ne (by simp)] at hseg
      exact hdistinct _ seg hseg
  · rcases hupdate s' with rfl | rfl
    · rw [Function.update_self, Function.update_of_ne (by simp)]
      exact hapart
    · rw [Function.update_of_ne (by simp), Bool.not_not, Function.update_self]
      exact fun a ha hb => hapart hb ha
  · rcases hupdate s' with rfl | rfl
    · exact absurd rfl hs'
    · rw [Function.update_of_ne (by simp)]
      exact haway _
  · cases hs'
    exact ⟨hne, init, Function.update_self ..⟩

/-- The segment is linked to the end of one of the lists. -/
theorem listConcat (g : Gathered key h lists current segs is none) {s : Bool} {r : ListPtr}
    (hrun : h.listConcat (lists s) current = some (h', r)) :
    ∃ segs' place', Gathered key h' (Function.update lists s r) current segs' is place' ∧
      (segs' s).length ≤ (segs s).length + 1 ∧ segs' (!s) = segs (!s) := by
  have haway : ∀ s, is.Disjoint (segs s).flatten := fun s => g.away s (by simp)
  have hself : ∀ new, Function.update segs s new (!s) = segs (!s) := by
    intro new
    rw [Function.update_of_ne (by simp)]
  cases current with
  | none =>
    have hsame : h' = h ∧ r = lists s := by
      cases hlist : lists s <;> rw [hlist] at hrun <;> cases hrun <;> exact ⟨rfl, rfl⟩
    obtain ⟨rfl, rfl⟩ := hsame
    exact ⟨segs, none, by rwa [Function.update_eq_self], Nat.le_succ _, rfl⟩
  | some q =>
    have hne := g.holds.ne_nil
    cases hlist : lists s with
    | none =>
      rw [hlist] at hrun
      cases hrun
      have hpasses : h.Passes (some q) ([].flatten ++ is) := g.holds.passes
      exact ⟨_, some s, g.link hne (fun _ _ => rfl) (List.forall_mem_nil _) hpasses (g.passes _)
        g.holds, by simp, hself _⟩
    | some p =>
      have hpasses := g.passes s
      rw [hlist] at hrun hpasses
      obtain ⟨xs, t, ys, hsegs, rfl, hlinked, f⟩ :=
        hpasses.listConcat g.holds (fun a ha hb => haway s hb ha) hrun
      obtain ⟨cut, hcut, hlen, hsub⟩ := exists_cut hsegs
      have ht : t ∈ (segs s).flatten := hsegs ▸ List.mem_append_right _ List.mem_cons_self
      have hother : h'.Passes (lists (!s)) (segs (!s)).flatten := by
        refine f.passes (g.passes _) (fun a ha hat => g.apart s ht (hat ▸ ha)) fun q' hq' hp => ?_
        exact hpasses.ne_of_disjoint (g.passes _) (g.apart s) hq' (congrArg some hp.symm)
      have hholds : h'.Holds (some q) is := by
        refine f.holds g.holds (fun a ha hat => haway s ha (hat ▸ ht)) fun q' hq' hp => ?_
        exact hpasses.ne_of_disjoint g.holds.passes (fun a ha hb => haway s hb ha) hq'
          (congrArg some hp.symm)
      refine ⟨_, some s, g.link hne (fun _ => f.contents) hsub ?_ hother hholds, ?_, hself _⟩
      · rw [hcut, List.append_assoc]
        exact hlinked
      · rw [Function.update_self, List.length_append]
        exact Nat.succ_le_succ hlen

/-- New lists change nothing. -/
theorem frame (g : Gathered key h lists current segs is place)
    (f : Frame (fun _ => False) (fun _ => False) h h') :
    Gathered key h' lists current segs is place := by
  refine ⟨fun s => f.passes (g.passes s) (fun _ _ => id) fun _ _ => id, fun s seg hseg => ?_,
    g.apart, f.holds g.holds (fun _ _ => id) fun _ _ => id, ?_, g.away, g.last⟩
  · rw [f.contents fun a ha => g.lt s a (List.mem_flatten.mpr ⟨seg, hseg, ha⟩)]
    exact g.distinct s seg hseg
  · rw [f.contents g.holds.lt]
    exact g.fresh

/-- A key occurs in a list at most once for each segment. -/
theorem count_le [BEq κ] [LawfulBEq κ] (g : Gathered key h lists current segs is place)
    (s : Bool) {data : List β} (hdata : h.foreach (lists s) = some data) (k : κ) :
    (data.map key).count k ≤ (segs s).length := by
  obtain rfl : h.contents (segs s).flatten = data :=
    Option.some.inj ((g.passes s).reads.foreach.symm.trans hdata)
  have hdistinct := g.distinct s
  generalize segs s = ss at hdistinct
  induction ss with
  | nil => simp [contents]
  | cons seg ss ih =>
    rw [List.forall_mem_cons] at hdistinct
    rw [List.flatten_cons, contents_append, List.map_append, List.count_append, List.length_cons]
    have hseg := List.nodup_iff_count.mp hdistinct.1 k
    have hrest := ih hdistinct.2
    omega

theorem segs_ne_nil (g : Gathered key h lists current segs is place) {s : Bool} {data : List β}
    (hdata : h.foreach (lists s) = some data) (hne : data ≠ []) : segs s ≠ [] := by
  intro hnil
  have hreads := (g.passes s).reads.foreach
  rw [hnil, hdata] at hreads
  exact hne (Option.some.inj hreads)

end Gathered

end CellList.Heap
