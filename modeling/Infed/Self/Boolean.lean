import Infed.Self.Conjoins
import Infed.Self.Rows

/-! Whether the constraints stay boolean expressions.  The first constraint on a table is an entry
of its own and the second one is joined to it by AND.  The third one finds that AND, whose arguments
`temp_modifier_add` returns as a bare list, and a bare list stays one. -/

namespace Infed.Self

variable {α : Type}

/-! ### Entries -/

/-- What `already_constrain_rel` is made of: conditions, and bare lists of them. -/
inductive Entry : Node α → Prop where
  | comparison {opno args} : (∀ a ∈ args, Term a) → Entry (.opExpr opno args)
  | nullTest {test arg} : Term arg → Entry (.nullTest test arg)
  | exist {targetList rtable fromlist quals} :
    Entry (.subLink .existsSublink .null (.query targetList rtable fromlist quals))
  | bool {boolop args} : (∀ a ∈ args, Entry a) → Entry (.boolExpr boolop args)
  | list {elems} : (∀ a ∈ elems, Entry a) → Entry (.list elems)

theorem Condition.entry {node : Node α} (h : Condition node) : Entry node := by
  induction h with
  | comparison hargs => exact .comparison hargs
  | nullTest harg => exact .nullTest harg
  | exist => exact .exist
  | bool _ ih => exact .bool ih

mutual

/-- A bare list stands where an expression should. -/
def bare : Node α → Bool
  | .list _ => true
  | .boolExpr _ args => bareSome args
  | _ => false

def bareSome : List (Node α) → Bool
  | [] => false
  | node :: nodes => bare node || bareSome nodes

end

theorem bareSome_eq_any (nodes : List (Node α)) : bareSome nodes = nodes.any bare := by
  induction nodes with
  | nil => rfl
  | cons a nodes ih => rw [bareSome, List.any_cons, ih]

theorem Entry.condition_iff {node : Node α} (h : Entry node) :
    Condition node ↔ bare node = false := by
  induction h with
  | comparison hargs => exact ⟨fun _ => rfl, fun _ => .comparison hargs⟩
  | nullTest harg => exact ⟨fun _ => rfl, fun _ => .nullTest harg⟩
  | exist => exact ⟨fun _ => rfl, fun _ => .exist⟩
  | list _ _ => exact ⟨(nomatch ·), (nomatch ·)⟩
  | bool _ ih =>
    rw [bare, bareSome_eq_any, List.any_eq_false]
    constructor
    · rintro (_ | _ | _ | hargs)
      exact fun a ha => Bool.not_eq_true _ ▸ (ih a ha).mp (hargs a ha)
    · exact fun hnone => .bool fun a ha => (ih a ha).mpr (Bool.not_eq_true _ ▸ hnone a ha)

/-! ### `temp_modifier_add` -/

/-- What `temp_modifier_add` makes of an entry with the constraint `c`: where it adds it, there is
a bare list; nothing changes on rows that meet it, and if it guards the entry, only those are
left. -/
structure Inserted (table : Table) (toAdd : Bool) (c node out : Node α) : Prop where
  entry : Entry out
  same : inserts table toAdd node = false → out = node
  bare : bare node = true ∨ inserts table toAdd node = true → Self.bare out = true
  columns : ∀ v ∈ columnsOf node, v ∈ columnsOf out
  inserted : inserts table toAdd node = true → ∀ v ∈ columnsOf c, v ∈ columnsOf out
  neutral : ∀ (I : Interp α) D ρ, evalCond I D c ρ = .true →
    evalCond I D out ρ = evalCond I D node ρ
  guarded : guards table toAdd node = true → ∀ (I : Interp α) D ρ,
    evalCond I D out ρ = .true → evalCond I D c ρ = .true

/-- The same for the arguments of an AND or OR: one that guards is enough for the conjunction, and
all have to for the disjunction. -/
structure InsertedList (table : Table) (toAdd : Bool) (c : Node α) (nodes outs : List (Node α)) :
    Prop where
  entry : ∀ out ∈ outs, Entry out
  same : insertsList table toAdd nodes = false → outs = nodes
  bare : bareSome nodes = true ∨ insertsList table toAdd nodes = true → bareSome outs = true
  columns : ∀ v ∈ columnsOfList nodes, v ∈ columnsOfList outs
  inserted : insertsList table toAdd nodes = true → ∀ v ∈ columnsOf c, v ∈ columnsOfList outs
  neutral : ∀ (I : Interp α) D ρ, evalCond I D c ρ = .true →
    evalConds I D outs ρ = evalConds I D nodes ρ
  guardedSome : guardsSome table toAdd nodes = true → ∀ (I : Interp α) D ρ,
    (∀ out ∈ outs, evalCond I D out ρ = .true) → evalCond I D c ρ = .true
  guardedAll : guardsAll table toAdd nodes = true → ∀ (I : Interp α) D ρ,
    (∃ out ∈ outs, evalCond I D out ρ = .true) → evalCond I D c ρ = .true

theorem insertedList_nil (table : Table) (toAdd : Bool) (c : Node α) :
    InsertedList table toAdd c [] [] where
  entry := by simp
  same _ := rfl
  bare := by simp [bareSome, insertsList]
  columns _ hv := hv
  inserted := by simp [insertsList]
  neutral _ _ _ _ := rfl
  guardedSome := by simp [guardsSome]
  guardedAll := by simp

theorem Inserted.cons {table : Table} {toAdd : Bool} {c node out : Node α}
    {nodes outs : List (Node α)} (h : Inserted table toAdd c node out)
    (hs : InsertedList table (toAddAfter table toAdd node) c nodes outs) :
    InsertedList table toAdd c (node :: nodes) (out :: outs) where
  entry := List.forall_mem_cons.mpr ⟨h.entry, hs.entry⟩
  same := by
    rw [insertsList, Bool.or_eq_false_iff]
    rintro ⟨hnode, hnodes⟩
    rw [h.same hnode, hs.same hnodes]
  bare := by
    rw [insertsList, bareSome, bareSome, Bool.or_eq_true, Bool.or_eq_true, Bool.or_eq_true]
    rintro ((hnode | hnodes) | (hnode | hnodes))
    · exact .inl (h.bare (.inl hnode))
    · exact .inr (hs.bare (.inl hnodes))
    · exact .inl (h.bare (.inr hnode))
    · exact .inr (hs.bare (.inr hnodes))
  columns v hv := by
    rw [columnsOfList, List.mem_append] at hv ⊢
    exact hv.imp (h.columns v) (hs.columns v)
  inserted := by
    rw [insertsList, Bool.or_eq_true]
    intro hinserts v hv
    rw [columnsOfList, List.mem_append]
    exact hinserts.imp (h.inserted · v hv) (hs.inserted · v hv)
  neutral I D ρ htrue := by
    rw [evalConds, evalConds, h.neutral I D ρ htrue, hs.neutral I D ρ htrue]
  guardedSome hg I D ρ hout := by
    rw [guardsSome, Bool.or_eq_true] at hg
    rw [List.forall_mem_cons] at hout
    rcases hg with hg | hg
    · exact h.guarded hg I D ρ hout.1
    · exact hs.guardedSome hg I D ρ hout.2
  guardedAll hg I D ρ hout := by
    rw [guardsAll, Bool.and_eq_true] at hg
    obtain ⟨b, hb, htrue⟩ := hout
    rcases List.mem_cons.mp hb with rfl | hb
    · exact h.guarded hg.1 I D ρ htrue
    · exact hs.guardedAll hg.2 I D ρ ⟨b, hb, htrue⟩

/-- A comparison, a null test or EXISTS is left as it is. -/
theorem inserted_self {table : Table} {toAdd : Bool} {c node : Node α} (h : Entry node)
    (hinserts : inserts table toAdd node = false) (hguards : guards table toAdd node = false) :
    Inserted table toAdd c node node where
  entry := h
  same _ := rfl
  bare := by simp [hinserts]
  columns _ hv := hv
  inserted := by simp [hinserts]
  neutral _ _ _ _ := rfl
  guarded := by simp [hguards]

/-- `temp_modifier_add` on an entry: its flags, and what it makes of it. -/
def Inserting (table : Table) (node : Node α) : Prop :=
  ∀ context : TempContext α, context.tableToAdd = table → Entry context.constraintToAdd → ∃ out,
    mutate tempModifierAdd node context = some (out, { context with
      toAdd := toAddAfter table context.toAdd node
      alreadyAdd := context.alreadyAdd || inserts table context.toAdd node }) ∧
    Inserted table context.toAdd context.constraintToAdd node out

theorem insertingList {table : Table} {nodes : List (Node α)}
    (h : ∀ node ∈ nodes, Inserting table node) :
    ∀ context : TempContext α, context.tableToAdd = table → Entry context.constraintToAdd →
      ∃ outs,
        mutateList tempModifierAdd nodes context = some (outs, { context with
          toAdd := toAddAfterList table context.toAdd nodes
          alreadyAdd := context.alreadyAdd || insertsList table context.toAdd nodes }) ∧
        InsertedList table context.toAdd context.constraintToAdd nodes outs := by
  induction nodes with
  | nil =>
    intro context htable _
    exact ⟨[], by simp [mutateList, toAddAfterList, insertsList], insertedList_nil _ _ _⟩
  | cons node nodes ih =>
    intro context htable hc
    rw [List.forall_mem_cons] at h
    obtain ⟨out, hrun, hinserted⟩ := h.1 context htable hc
    obtain ⟨outs, hruns, hinsertedList⟩ := ih h.2 { context with
      toAdd := toAddAfter table context.toAdd node
      alreadyAdd := context.alreadyAdd || inserts table context.toAdd node } htable hc
    refine ⟨out :: outs, ?_, hinserted.cons hinsertedList⟩
    rw [mutateList_cons hrun hruns, Bool.or_assoc]
    rfl

/-- A bare list of arguments. -/
theorem InsertedList.list {table : Table} {toAdd : Bool} {c : Node α} {elems outs : List (Node α)}
    (h : InsertedList table toAdd c elems outs) :
    Inserted table toAdd c (.list elems) (.list outs) where
  entry := .list h.entry
  same hnone := by rw [h.same hnone]
  bare _ := rfl
  columns := h.columns
  inserted := h.inserted
  neutral I D ρ htrue := by rw [evalCond, evalCond, h.neutral I D ρ htrue]
  guarded hg I D ρ htrue := h.guardedSome hg I D ρ (evalCond_list_eq_true.mp htrue)

/-- An OR, a NOT, or an AND that is left with `to_add` cleared. -/
theorem InsertedList.bool {table : Table} {toAdd : Bool} {c : Node α} {args outs : List (Node α)}
    (h : InsertedList table toAdd c args outs) {boolop : BoolExprType}
    (hadd : boolop = .andExpr → toAddAfterList table toAdd args = false) :
    Inserted table toAdd c (.boolExpr boolop args) (.boolExpr boolop outs) := by
  have hinserts : inserts table toAdd (.boolExpr boolop args) = insertsList table toAdd args := by
    cases boolop with
    | andExpr => rw [inserts, hadd rfl, Bool.or_false]
    | _ => rfl
  refine ⟨.bool h.entry, fun hnone => by rw [h.same (hinserts ▸ hnone)],
    fun hbare => h.bare (hinserts ▸ hbare), h.columns, fun hsome => h.inserted (hinserts ▸ hsome),
    fun I D ρ htrue => ?_, fun hg I D ρ htrue => ?_⟩
  · cases boolop <;> rw [evalCond, evalCond, h.neutral I D ρ htrue]
  · cases boolop with
    | andExpr =>
      rw [guards, hadd rfl, Bool.or_false] at hg
      exact h.guardedSome hg I D ρ (evalCond_and_eq_true.mp htrue)
    | orExpr => exact h.guardedAll hg I D ρ (evalCond_or_eq_true.mp htrue)
    | notExpr => cases hg

/-- An AND that takes the constraint. -/
theorem InsertedList.and {table : Table} {toAdd : Bool} {c : Node α} {args outs : List (Node α)}
    (h : InsertedList table toAdd c args outs) (hc : Entry c)
    (hadd : toAddAfterList table toAdd args = true) :
    Inserted table toAdd c (.boolExpr .andExpr args) (.list (outs ++ [c])) where
  entry := .list (List.forall_mem_append.mpr ⟨h.entry, List.forall_mem_singleton.mpr hc⟩)
  same hnone := by
    rw [inserts, hadd, Bool.or_true] at hnone
    cases hnone
  bare _ := rfl
  columns v hv := by
    obtain ⟨a, ha, hva⟩ := mem_columnsOfList.mp (h.columns v hv)
    exact mem_columnsOfList.mpr ⟨a, List.mem_append_left _ ha, hva⟩
  inserted _ v hv := mem_columnsOfList.mpr ⟨c, List.mem_append_right _ List.mem_cons_self, hv⟩
  neutral I D ρ htrue := by
    rw [evalCond, evalCond, evalConds_eq_map, List.map_append, ← evalConds_eq_map,
      h.neutral I D ρ htrue, Kleene.conj_append]
    simp [htrue, Kleene.le_true]
  guarded _ I D ρ htrue :=
    evalCond_list_eq_true.mp htrue c (List.mem_append_right _ List.mem_cons_self)

theorem Entry.inserting {table : Table} {node : Node α} (h : Entry node) :
    Inserting table node := by
  induction h with
  | comparison h =>
    intro context htable _
    refine ⟨_, ?_, inserted_self (.comparison h) rfl rfl⟩
    simp [mutate, tempModifierAdd, mutateList_terms h context htable, toAddAfter, inserts]
  | nullTest h =>
    intro context htable _
    refine ⟨_, ?_, inserted_self (.nullTest h) rfl rfl⟩
    simp [mutate, tempModifierAdd, mutate_term h context htable, toAddAfter, inserts]
  | exist =>
    intro context _ _
    refine ⟨_, ?_, inserted_self .exist rfl rfl⟩
    simp [mutate, tempModifierAdd, toAddAfter, inserts]
  | list _ ih =>
    intro context htable hc
    obtain ⟨outs, hrun, hinserted⟩ := insertingList ih context htable hc
    refine ⟨.list outs, ?_, hinserted.list⟩
    simp [mutate, tempModifierAdd, hrun, toAddAfter, inserts]
  | @bool boolop args _ ih =>
    intro context htable hc
    obtain ⟨outs, hrun, hinserted⟩ := insertingList ih context htable hc
    cases boolop with
    | orExpr | notExpr =>
      refine ⟨.boolExpr _ outs, ?_, hinserted.bool (by simp)⟩
      simp [mutate, tempModifierAdd, hrun, toAddAfter, inserts]
    | andExpr =>
      cases hadd : toAddAfterList table context.toAdd args with
      | false =>
        refine ⟨.boolExpr .andExpr outs, ?_, hinserted.bool fun _ => hadd⟩
        simp [mutate, tempModifierAdd, hrun, toAddAfter, inserts, hadd]
      | true =>
        refine ⟨.list (outs ++ [context.constraintToAdd]), ?_, hinserted.and hc hadd⟩
        simp [mutate, tempModifierAdd, hrun, toAddAfter, inserts, hadd]

/-! ### `add_constrain` -/

/-- Of the entries, the first one with a column of the table takes the constraint into an AND. -/
def takenByAnd (table : Table) : List (Node α) → Bool
  | [] => false
  | t :: rel => inserts table false t || !toAddAfter table false t && takenByAnd table rel

/-- What `add_constrain` makes of the entries with the constraint `c`. -/
structure Constrained (table : Table) (c : Node α) (rel rel' : List (Node α)) : Prop where
  entry : ∀ t ∈ rel', Entry t
  bare : rel'.any bare = (rel.any bare || takenByAnd table rel)
  columns : ∀ v, v ∈ columnsOfList rel ∨ v ∈ columnsOf c → v ∈ columnsOfList rel'
  conjoined : conjoins table rel = true → ∀ (I : Interp α) D ρ,
    (∀ t ∈ rel', evalCond I D t ρ = .true) ↔
      (∀ t ∈ rel, evalCond I D t ρ = .true) ∧ evalCond I D c ρ = .true

theorem constrained_nil {table : Table} {c : Node α} (hc : Condition c) :
    Constrained table c [] [c] where
  entry := by simpa using hc.entry
  bare := by simp [takenByAnd, hc.entry.condition_iff.mp hc]
  columns v hv := by simpa [columnsOfList] using hv
  conjoined := by simp

/-- The constraint goes into an AND of the first entry. -/
theorem Inserted.constrained {table : Table} {c t new : Node α} {rel : List (Node α)}
    (h : Inserted table false c t new) (hinserts : inserts table false t = true)
    (hrel : ∀ t ∈ rel, Entry t) : Constrained table c (t :: rel) (new :: rel) where
  entry := List.forall_mem_cons.mpr ⟨h.entry, hrel⟩
  bare := by simp [h.bare (.inr hinserts), takenByAnd, hinserts]
  columns v hv := by
    rw [columnsOfList, List.mem_append] at hv ⊢
    rcases hv with (hv | hv) | hv
    · exact .inl (h.columns v hv)
    · exact .inr hv
    · exact .inl (h.inserted hinserts v hv)
  conjoined hguards I D ρ := by
    rw [conjoins, if_pos hinserts] at hguards
    simp only [List.forall_mem_cons]
    constructor
    · rintro ⟨htrue, hrest⟩
      have hctrue := h.guarded hguards I D ρ htrue
      exact ⟨⟨h.neutral I D ρ hctrue ▸ htrue, hrest⟩, hctrue⟩
    · rintro ⟨⟨htrue, hrest⟩, hctrue⟩
      exact ⟨(h.neutral I D ρ hctrue).trans htrue, hrest⟩

/-- The constraint and the first entry become an AND. -/
theorem constrained_and {table : Table} {c t : Node α} {rel : List (Node α)} (hc : Condition c)
    (ht : Entry t) (hrel : ∀ t ∈ rel, Entry t) (hinserts : inserts table false t = false)
    (hadd : toAddAfter table false t = true) :
    Constrained table c (t :: rel) (.boolExpr .andExpr [t, c] :: rel) where
  entry := List.forall_mem_cons.mpr ⟨.bool (by simpa using ⟨ht, hc.entry⟩), hrel⟩
  bare := by simp [Self.bare, bareSome, hc.entry.condition_iff.mp hc, takenByAnd, hinserts, hadd]
  columns v hv := by
    simp only [columnsOfList, columnsOf, List.mem_append, List.append_nil] at hv ⊢
    rcases hv with (hv | hv) | hv
    · exact .inl (.inl hv)
    · exact .inr hv
    · exact .inl (.inr hv)
  conjoined _ I D ρ := by
    simp only [List.forall_mem_cons, evalCond_and_eq_true, List.not_mem_nil, false_implies,
      implies_true, and_true]
    exact and_right_comm

/-- The constraint goes to a later entry. -/
theorem Constrained.cons {table : Table} {c t : Node α} {rel rel' : List (Node α)}
    (h : Constrained table c rel rel') (ht : Entry t) (hinserts : inserts table false t = false)
    (hadd : toAddAfter table false t = false) : Constrained table c (t :: rel) (t :: rel') where
  entry := List.forall_mem_cons.mpr ⟨ht, h.entry⟩
  bare := by simp [h.bare, takenByAnd, hinserts, hadd, Bool.or_assoc]
  columns v hv := by
    rw [columnsOfList, List.mem_append] at hv ⊢
    rcases hv with (hv | hv) | hv
    · exact .inl hv
    · exact .inr (h.columns v (.inl hv))
    · exact .inr (h.columns v (.inr hv))
  conjoined hconjoins I D ρ := by
    rw [conjoins, hinserts, hadd] at hconjoins
    rw [List.forall_mem_cons, List.forall_mem_cons, h.conjoined hconjoins I D ρ, and_assoc]

theorem addConstrainLoop_entries {table : Table} {rel : List (Node α)} (h : ∀ t ∈ rel, Entry t)
    {c : Node α} (hc : Condition c) :
    ∃ result context, addConstrainLoop rel (makeTempContext c table) = some (result, context) ∧
      context.constraintToAdd = c ∧
      Constrained table c rel (if context.alreadyAdd then result else result ++ [c]) := by
  induction rel with
  | nil => exact ⟨[], _, rfl, rfl, constrained_nil hc⟩
  | cons t rel ih =>
    rw [List.forall_mem_cons] at h
    obtain ⟨new, hrun, hinserted⟩ := h.1.inserting (makeTempContext c table) rfl hc.entry
    have hnew : mutate tempModifierAdd t ⟨table, c, false, false⟩ =
      some (new, ⟨table, c, toAddAfter table false t, inserts table false t⟩) := hrun
    rw [makeTempContext] at ih ⊢
    cases hinserts : inserts table false t with
    | true =>
      have hcopy : addConstrainLoop rel ⟨table, c, toAddAfter table false t, true⟩ = _ :=
        addConstrainLoop_alreadyAdd rfl rel
      refine ⟨new :: rel, ⟨table, c, toAddAfter table false t, true⟩, ?_, rfl,
        hinserted.constrained hinserts h.2⟩
      rw [hinserts] at hnew
      simp [addConstrainLoop, hnew, hcopy]
    | false =>
      rw [hinserted.same hinserts, hinserts] at hnew
      cases hadd : toAddAfter table false t with
      | true =>
        have hcopy : addConstrainLoop rel ⟨table, c, false, true⟩ = _ :=
          addConstrainLoop_alreadyAdd rfl rel
        refine ⟨.boolExpr .andExpr [t, c] :: rel, ⟨table, c, false, true⟩, ?_, rfl,
          constrained_and hc h.1 h.2 hinserts hadd⟩
        rw [hadd] at hnew
        simp [addConstrainLoop, hnew, hcopy]
      | false =>
        obtain ⟨result, context, hloop, hcontext, hconstrained⟩ := ih h.2
        have hcons : (if context.alreadyAdd then t :: result else t :: result ++ [c]) =
            t :: if context.alreadyAdd then result else result ++ [c] := by
          split <;> rfl
        refine ⟨t :: result, context, ?_, hcontext,
          hcons ▸ hconstrained.cons h.1 hinserts hadd⟩
        rw [hadd] at hnew
        simp [addConstrainLoop, hnew, hloop]

theorem addConstrain_entries (table : Table) {rel : List (Node α)} (h : ∀ t ∈ rel, Entry t)
    {c : Node α} (hc : Condition c) :
    ∃ rel', addConstrain rel (makeTempContext c table) = some rel' ∧
      Constrained table c rel rel' := by
  obtain ⟨result, context, hloop, hcontext, hconstrained⟩ := addConstrainLoop_entries h hc
  cases rel with
  | nil =>
    cases hloop
    exact ⟨[c], rfl, hconstrained⟩
  | cons t rel =>
    refine ⟨_, ?_, hconstrained⟩
    simp only [addConstrain, hloop, hcontext, Option.bind_eq_bind, Option.bind_some]

/-! ### A run -/

/-- No call of `add_constrain` finds an AND for its constraint in the entries so far. -/
def NoneTaken (rel nodes : List (Node α)) : Prop :=
  ∀ pre c post, nodes = pre ++ c :: post → ∀ rel', addConstraints rel pre = some rel' →
    takenByAnd (key c) rel' = false

theorem addConstraints_cons {rel rel' nodes : List (Node α)} {node : Node α}
    (h : addConstrain rel (makeTempContext node (key node)) = some rel') :
    addConstraints rel (node :: nodes) = addConstraints rel' nodes := by
  simp [addConstraints, h]

theorem noneTaken_cons {rel rel' nodes : List (Node α)} {node : Node α}
    (h : addConstrain rel (makeTempContext node (key node)) = some rel') :
    NoneTaken rel (node :: nodes) ↔ takenByAnd (key node) rel = false ∧ NoneTaken rel' nodes := by
  constructor
  · intro hnone
    refine ⟨hnone [] node nodes rfl rel rfl, fun pre c post hnodes rel1 hrun => ?_⟩
    exact hnone (node :: pre) c post (by rw [hnodes, List.cons_append]) rel1
      ((addConstraints_cons h).trans hrun)
  · rintro ⟨hhead, htail⟩ pre c post hnodes rel1 hrun
    cases pre with
    | nil =>
      obtain ⟨rfl, -⟩ := List.cons.inj hnodes
      obtain rfl : rel = rel1 := Option.some.inj hrun
      exact hhead
    | cons a pre =>
      obtain ⟨rfl, hrest⟩ := List.cons.inj hnodes
      exact htail pre c post hrest rel1 ((addConstraints_cons h).symm.trans hrun)

/-- There is a bare list after a run exactly if there was one before or a call has made one. -/
theorem addConstraints_bare {nodes : List (Node α)} (hnodes : ∀ c ∈ nodes, Condition c)
    {rel : List (Node α)} (h : ∀ t ∈ rel, Entry t) :
    ∃ rel', addConstraints rel nodes = some rel' ∧ (∀ t ∈ rel', Entry t) ∧
      (rel'.any bare = false ↔ rel.any bare = false ∧ NoneTaken rel nodes) := by
  induction nodes generalizing rel with
  | nil => exact ⟨rel, rfl, h, by simp [NoneTaken]⟩
  | cons node nodes ih =>
    rw [List.forall_mem_cons] at hnodes
    obtain ⟨rel1, hadd, hconstrained⟩ := addConstrain_entries (key node) h hnodes.1
    obtain ⟨rel', hrun, hentries', hiff⟩ := ih hnodes.2 hconstrained.entry
    refine ⟨rel', (addConstraints_cons hadd).trans hrun, hentries', ?_⟩
    rw [hiff, hconstrained.bare, Bool.or_eq_false_iff, noneTaken_cons hadd, and_assoc]

/-! ### `modif_rel` -/

theorem Condition.mapColumns (f : Var → Var) {node : Node α} (h : Condition node) :
    Condition (Infed.mapColumns f node) := by
  induction h with
  | comparison hargs =>
    rw [Infed.mapColumns, mapColumnsList_eq_map]
    exact .comparison (List.forall_mem_map.mpr fun a ha => (hargs a ha).mapColumns f)
  | nullTest harg => exact .nullTest (harg.mapColumns f)
  | exist => exact .exist
  | bool _ ih =>
    rw [Infed.mapColumns, mapColumnsList_eq_map]
    exact .bool (List.forall_mem_map.mpr ih)

/-- `modif_rel` makes a boolean expression of a boolean expression. -/
theorem Condition.modifRel {node : Node α} (h : Condition node) :
    ∃ node', mutate modifRel node () = some (node', ()) ∧ Condition node' :=
  ⟨_, modifRel_maps.mutate node h.isExpression, h.mapColumns toFirst⟩

/-- The constraint is a boolean expression, and so is the WHERE that `rewrite_self` makes of it. -/
def IsBoolean (t : Node α) : Prop :=
  Condition t ∧ ∃ nConstraint, mutate modifRel t () = some (nConstraint, ()) ∧
    Condition nConstraint

/-- After `my_modifier_self` all constraints are boolean expressions exactly if no call of
`add_constrain` has found an AND for its constraint. -/
theorem myModifierSelf_boolean_iff {quals : Node α} (h : Condition quals) :
    ∃ context, mutate myModifierSelf quals makeContextOptimizerSelf =
        some (strip none quals, context) ∧
      ((∀ t ∈ context.alreadyConstrainRel, IsBoolean t) ↔ NoneTaken [] (moved none quals)) := by
  obtain ⟨context, hrun, hconstraints⟩ := myModifierSelf_condition h
  have hnil : ∀ t ∈ ([] : List (Node α)), Entry t := by simp
  obtain ⟨rel, hrel, hentries, hbare⟩ := addConstraints_bare (moved_condition h none) hnil
  obtain rfl : context.alreadyConstrainRel = rel :=
    Option.some.inj (hconstraints.symm.trans hrel)
  refine ⟨context, hrun, ?_⟩
  have hnone : NoneTaken [] (moved none quals) ↔ ∀ t ∈ context.alreadyConstrainRel,
      ¬bare t = true := by
    rw [← List.any_eq_false, hbare]
    exact (and_iff_right rfl).symm
  rw [hnone]
  refine forall₂_congr fun t ht => ?_
  rw [Bool.not_eq_true, ← (hentries t ht).condition_iff]
  exact ⟨fun hboolean => hboolean.1, fun hcondition => ⟨hcondition, hcondition.modifRel⟩⟩

def equals (varno varattno : Nat) (c : Int) : Node Int := compared 96 ⟨varno, varattno, 0⟩ c

theorem equals_condition (varno varattno : Nat) (c : Int) :
    Condition (equals varno varattno c) :=
  .comparison (by simpa using ⟨.column, .constant⟩)

/-- `r.a = 1 AND s.a = 2 AND r.b = 3` -/
def twoOnOneTable : Node Int := .boolExpr .andExpr [equals 1 1 1, equals 2 1 2, equals 1 2 3]

theorem twoOnOneTable_condition : Condition twoOnOneTable :=
  .bool (by simp [equals_condition])

theorem myModifierSelf_boolean_iff_two :
    NoneTaken [] (moved none twoOnOneTable) ∧
    ∃ context, mutate myModifierSelf twoOnOneTable makeContextOptimizerSelf =
        some (strip none twoOnOneTable, context) ∧
      ((∀ t ∈ context.alreadyConstrainRel, IsBoolean t) ↔
        NoneTaken [] (moved none twoOnOneTable)) := by
  refine ⟨?_, myModifierSelf_boolean_iff twoOnOneTable_condition⟩
  have hmoved : moved none twoOnOneTable = [equals 1 1 1, equals 2 1 2, equals 1 2 3] := rfl
  have hfirst : addConstrain [] (makeTempContext (equals 1 1 1) (key (equals 1 1 1))) =
      some [equals 1 1 1] := rfl
  have hsecond : addConstrain [equals 1 1 1] (makeTempContext (equals 2 1 2) (key (equals 2 1 2))) =
      some [equals 1 1 1, equals 2 1 2] := rfl
  have hthird : addConstrain [equals 1 1 1, equals 2 1 2]
      (makeTempContext (equals 1 2 3) (key (equals 1 2 3))) =
        some [.boolExpr .andExpr [equals 1 1 1, equals 1 2 3], equals 2 1 2] := rfl
  rw [hmoved, noneTaken_cons hfirst, noneTaken_cons hsecond, noneTaken_cons hthird]
  exact ⟨rfl, rfl, rfl, by simp [NoneTaken]⟩

/-- `r.a = 1 AND r.b = 2 AND r.c = 3` -/
def threeOnOneTable : Node Int := .boolExpr .andExpr [equals 1 1 1, equals 1 2 2, equals 1 3 3]

/-- A bare list is the only constraint, and becomes the WHERE of the new sub-select. -/
theorem myModifierSelf_boolean_fails :
    Condition threeOnOneTable ∧
    ∃ context, mutate myModifierSelf threeOnOneTable makeContextOptimizerSelf =
        some (strip none threeOnOneTable, context) ∧
      context.alreadyConstrainRel = [.list [equals 1 1 1, equals 1 2 2, equals 1 3 3]] ∧
      mutate modifRel (.list [equals 1 1 1, equals 1 2 2, equals 1 3 3]) () =
        some (.list [equals 1 1 1, equals 1 2 2, equals 1 3 3], ()) := by
  have hquals : Condition threeOnOneTable := .bool (by simp [equals_condition])
  obtain ⟨context, hrun, hrel⟩ := myModifierSelf_condition hquals
  refine ⟨hquals, context, hrun, ?_, rfl⟩
  have hmoved : moved none threeOnOneTable = [equals 1 1 1, equals 1 2 2, equals 1 3 3] := rfl
  have hfirst : addConstrain [] (makeTempContext (equals 1 1 1) (key (equals 1 1 1))) =
      some [equals 1 1 1] := rfl
  have hsecond : addConstrain [equals 1 1 1] (makeTempContext (equals 1 2 2) (key (equals 1 2 2))) =
      some [.boolExpr .andExpr [equals 1 1 1, equals 1 2 2]] := rfl
  have hthird : addConstrain [.boolExpr .andExpr [equals 1 1 1, equals 1 2 2]]
      (makeTempContext (equals 1 3 3) (key (equals 1 3 3))) =
        some [.list [equals 1 1 1, equals 1 2 2, equals 1 3 3]] := rfl
  rw [hmoved, addConstraints_cons hfirst, addConstraints_cons hsecond,
    addConstraints_cons hthird] at hrel
  exact (Option.some.inj hrel).symm

end Infed.Self
