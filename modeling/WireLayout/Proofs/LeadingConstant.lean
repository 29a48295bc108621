import WireLayout.Proofs.Layout

/-!
# A constant before the other fields

A constant takes no bytes. Put before the other fields of a struct it moves each of them by one place,
and as its name is new, nothing refers to it: the same fields count elements, the same share slots, and
what waits for a later field still waits for it. The places are all that changes, and no step of a plan
holds one.
-/

namespace WireLayout

theorem mapM_map_right {ε α β γ : Type} (f : α → Except ε β) (g : β → γ) (l : List α) :
    l.mapM (fun a => (f a).map g) = (l.mapM f).map (List.map g) := by
  induction l with
  | nil => rfl
  | cons a l ih =>
    rw [List.mapM_cons, List.mapM_cons, ih]
    cases f a with
    | error e => rfl
    | ok b => cases l.mapM f <;> rfl

theorem mapM_congr_left {ε α β : Type} {f g : α → Except ε β} {l : List α}
    (h : ∀ a ∈ l, f a = g a) : l.mapM f = l.mapM g := by
  induction l with
  | nil => rfl
  | cons a l ih =>
    rw [List.mapM_cons, List.mapM_cons, h a List.mem_cons_self,
      ih fun x hx => h x (List.mem_cons_of_mem _ hx)]

/-! ## Constants -/

namespace Field

variable {k : Field} (h : k.isConst = true)

include h

theorem disposition_of_isConst : ∃ value, k.disposition = .const value := by
  unfold isConst at h
  cases hd : k.disposition with
  | const value => exact ⟨value, rfl⟩
  | _ => simp [hd, Disposition.role] at h

theorem countedBy?_of_isConst : k.countedBy? = none := by
  obtain ⟨value, hd⟩ := disposition_of_isConst h
  simp [countedBy?, hd]

theorem sizedArray?_of_isConst : k.sizedArray? = none := by
  obtain ⟨value, hd⟩ := disposition_of_isConst h
  simp [sizedArray?, hd]

theorem sizeOfTarget?_of_isConst : k.sizeOfTarget? = none := by
  obtain ⟨value, hd⟩ := disposition_of_isConst h
  simp [sizeOfTarget?, hd]

theorem isStored_of_isConst : k.isStored = false := by
  obtain ⟨value, hd⟩ := disposition_of_isConst h
  simp [isStored, hd]

end Field

/-- A struct with another field before its own, and with another identity. -/
def Struct.behind (s : Struct) (k : Field) (identity : Option Identity) : Struct :=
  { s with fields := k :: s.fields, identity }

/-- Whether a field may be put before those of a struct without notice: it is a constant, and its name
is new. -/
structure Struct.Spares (s : Struct) (k : Field) : Prop where
  isConst : k.isConst = true
  fresh : ∀ f ∈ s.fields, f.name ≠ k.name

/-! ## Fields -/

namespace Struct.Spares

variable {s : Struct} {k : Field} {identity : Option Identity}

theorem field?_self (h : s.Spares k) : s.field? k.name = none :=
  List.find?_eq_none.mpr fun f hf => by simpa using h.fresh f hf

theorem position?_self (h : s.Spares k) : s.position? k.name = none :=
  List.findIdx?_eq_none_iff.mpr fun f hf => by simpa using h.fresh f hf

theorem position?_front : (s.behind k identity).position? k.name = some 0 := by
  unfold position?
  simp [behind, List.findIdx?_cons]

theorem field?_behind {name : String} (hne : name ≠ k.name) :
    (s.behind k identity).field? name = s.field? name := by
  unfold field?
  simp [behind, hne.symm]

theorem position?_behind {name : String} (hne : name ≠ k.name) :
    (s.behind k identity).position? name = (s.position? name).map (· + 1) := by
  unfold position?
  simp [behind, List.findIdx?_cons, hne.symm]

/-! ## Counts and regions -/

section

variable (h : s.Spares k)

include h

theorem arraysCountedBy_behind (name : String) :
    (s.behind k identity).arraysCountedBy name = s.arraysCountedBy name := by
  simp [arraysCountedBy, behind, Field.countedBy?_of_isConst h.isConst]

theorem isCount_behind (name : String) :
    (s.behind k identity).isCount name = s.isCount name := by
  unfold isCount
  rw [h.arraysCountedBy_behind]

theorem regionsMeasuredBy_behind (name : String) :
    (s.behind k identity).regionsMeasuredBy name = s.regionsMeasuredBy name := by
  simp [regionsMeasuredBy, behind, Field.sizedArray?_of_isConst h.isConst]

theorem headerReferences_behind :
    (s.behind k identity).headerReferences = s.headerReferences := by
  simp [headerReferences, behind, Field.sizedArray?_of_isConst h.isConst]

/-! ## Unions -/

theorem conditioned_behind : (s.behind k identity).conditioned = s.conditioned := by
  simp [conditioned, behind, h.isConst]

theorem groupLayout_behind (tested : String) {first : String} (hfirst : first ≠ k.name) :
    (s.behind k identity).groupLayout tested first = s.groupLayout tested first := by
  unfold groupLayout
  rw [position?_behind hfirst]
  by_cases htested : tested = k.name
  · -- nothing comes before the first field
    rw [htested, position?_front, h.position?_self]
    cases s.position? first <;> simp
  · rw [position?_behind htested]
    cases s.position? tested with
    | none => rfl
    | some t =>
      cases s.position? first with
      | none => rfl
      | some p => simp

theorem groupOf_behind (tested : String) :
    (s.behind k identity).groupOf tested = s.groupOf tested := by
  unfold groupOf
  simp only [h.conditioned_behind]
  congr 1
  cases hmembers : (s.conditioned.filter fun p => p.2 == tested).map (·.1) with
  | nil => rfl
  | cons first rest =>
    refine h.groupLayout_behind tested ?_
    have hmem : first ∈ (s.groupOf tested).members := by
      unfold groupOf
      rw [hmembers]
      exact List.mem_cons_self
    obtain ⟨f, hf, -, rfl, -⟩ := mem_conditioned.mp (mem_members_groupOf.mp hmem)
    exact h.fresh f hf

theorem groups_behind : (s.behind k identity).groups = s.groups := by
  have hgroup : (s.behind k identity).groupOf = s.groupOf := funext h.groupOf_behind
  unfold groups
  rw [h.conditioned_behind, hgroup]

theorem unions_behind : (s.behind k identity).unions = s.unions := by
  unfold unions
  rw [h.groups_behind]

theorem unionOf?_behind (name : String) :
    (s.behind k identity).unionOf? name = s.unionOf? name := by
  unfold unionOf?
  rw [h.unions_behind]

theorem ne_of_mem_members {g : ConditionGroup} (hg : g ∈ s.unions) {name : String}
    (hname : name ∈ g.members) : name ≠ k.name := by
  obtain ⟨f, hf, -, rfl, -⟩ := field_of_mem_members (mem_unions.mp hg).1 hname
  exact h.fresh f hf

theorem unionOf?_self : s.unionOf? k.name = none := by
  refine List.find?_eq_none.mpr fun g hg hmem => ?_
  exact h.ne_of_mem_members hg (List.contains_iff_mem.mp hmem) rfl

/-! ## Sizes -/

theorem separateFields_behind : (s.behind k identity).separateFields = s.separateFields := by
  have hunion : (s.behind k identity).unionOf? = s.unionOf? := funext h.unionOf?_behind
  unfold separateFields
  rw [hunion]
  simp [behind, h.isConst]

theorem unionSizeWith?_behind (sizeOf : String → Option Nat) {g : ConditionGroup}
    (hg : g ∈ s.unions) :
    (s.behind k identity).unionSizeWith? sizeOf g = s.unionSizeWith? sizeOf g := by
  have hmembers : ∀ name ∈ g.members, name ≠ k.name := fun name => h.ne_of_mem_members hg
  unfold unionSizeWith?
  generalize g.members = members at hmembers
  generalize 0 = widest
  induction members generalizing widest with
  | nil => rfl
  | cons name rest ih =>
    have hrest := ih fun x hx => hmembers x (List.mem_cons_of_mem _ hx)
    simp only [List.foldlM_cons, field?_behind (hmembers name List.mem_cons_self), hrest]

theorem sizeWith?_behind (sizeOf : String → Option Nat) :
    (s.behind k identity).sizeWith? sizeOf = s.sizeWith? sizeOf := by
  have hslots : ∀ gs : List ConditionGroup, (∀ g ∈ gs, g ∈ s.unions) → ∀ total,
      sumSizes? ((s.behind k identity).unionSizeWith? sizeOf) total gs =
        sumSizes? (s.unionSizeWith? sizeOf) total gs := by
    intro gs hgs
    induction gs with
    | nil => exact fun _ => rfl
    | cons g rest ih =>
      intro total
      unfold sumSizes?
      rw [h.unionSizeWith?_behind sizeOf (hgs g List.mem_cons_self)]
      cases (s.unionSizeWith? sizeOf g).bind (addSize? total) with
      | none => rfl
      | some total => exact ih (fun x hx => hgs x (List.mem_cons_of_mem _ hx)) total
  unfold sizeWith?
  rw [h.unions_behind, h.separateFields_behind, hslots s.unions fun _ hg => hg]

end

end Struct.Spares

/-! ## Slots and entries -/

/-- A slot one place later. -/
def UnionSlot.later (slot : UnionSlot) : UnionSlot := { slot with position := slot.position + 1 }

/-- An entry whose slot, if it has one, starts one place later. -/
def WireEntry.later (e : WireEntry) : WireEntry :=
  match e.shape with
  | .union slot => { e with shape := .union slot.later }
  | _ => e

namespace WireEntry

variable (e : WireEntry)

theorem step_later {Op : Type} (op : Op) : e.later.step op = e.step op := by
  unfold later
  split <;> rfl

theorem sizeOp_later : e.later.sizeOp = e.sizeOp := by
  unfold later
  split
  · rename_i slot hslot
    simp [sizeOp, hslot, UnionSlot.later]
  · rfl

theorem encodeOp_later (s : Struct) : e.later.encodeOp s = e.encodeOp s := by
  unfold later
  split
  · rename_i slot hslot
    simp [encodeOp, hslot, UnionSlot.later]
  · rfl

theorem decodeOp_later (s : Struct) : e.later.decodeOp s = e.decodeOp s := by
  unfold later
  split
  · rename_i slot hslot
    simp [decodeOp, hslot, UnionSlot.later]
  · rfl

end WireEntry

namespace Struct.Spares

variable {s : Struct} {k : Field} {identity : Option Identity} (h : s.Spares k)

include h

theorem encodeOp_behind (e : WireEntry) :
    e.encodeOp (s.behind k identity) = e.encodeOp s := by
  unfold WireEntry.encodeOp
  simp only [h.isCount_behind, h.arraysCountedBy_behind, h.regionsMeasuredBy_behind]

theorem decodeOp_behind (e : WireEntry) :
    e.decodeOp (s.behind k identity) = e.decodeOp s := by
  unfold WireEntry.decodeOp
  simp only [h.isCount_behind]

theorem unionSlot_behind (schema : Schema) {g : ConditionGroup} (hg : g ∈ s.unions)
    {first : String} (hfirst : g.members.head? = some first) :
    schema.unionSlot (s.behind k identity) g first =
      (schema.unionSlot s g first).map UnionSlot.later := by
  have hne := h.ne_of_mem_members hg (List.mem_of_mem_head? hfirst)
  have hmembers : g.members.filterMap (schema.unionMember? (s.behind k identity)) =
      g.members.filterMap (schema.unionMember? s) := by
    refine List.filterMap_congr fun name hname => ?_
    unfold Schema.unionMember?
    rw [field?_behind (h.ne_of_mem_members hg hname)]
    rfl
  -- the slot has a place in both structs, so that the default place does not matter
  obtain ⟨place, hplace⟩ : ∃ place, s.position? first = some place := by
    obtain ⟨f, hf, -, rfl, -⟩ :=
      field_of_mem_members (mem_unions.mp hg).1 (List.mem_of_mem_head? hfirst)
    refine Option.isSome_iff_exists.mp ?_
    unfold position?
    rw [List.findIdx?_isSome]
    exact List.any_eq_true.mpr ⟨f, hf, beq_self_eq_true _⟩
  unfold Schema.unionSlot Schema.unionSize?
  rw [h.unionSizeWith?_behind _ hg, hmembers, position?_behind hne, hplace]
  cases s.unionSizeWith? schema.fixedSize? g with
  | none => rfl
  | some bytes =>
    dsimp only
    cases (g.members.filterMap (schema.unionMember? s)).mapM id with
    | error e => rfl
    | ok members => rfl

theorem unionSlots_behind (schema : Schema) :
    schema.unionSlots (s.behind k identity) =
      (schema.unionSlots s).map (List.map UnionSlot.later) := by
  have hslots : (s.unions.filterMap fun g =>
        g.members.head?.map (schema.unionSlot (s.behind k identity) g)) =
      (s.unions.filterMap fun g => g.members.head?.map (schema.unionSlot s g)).map
        fun slot => slot.map UnionSlot.later := by
    rw [List.map_filterMap]
    refine List.filterMap_congr fun g hg => ?_
    cases hfirst : g.members.head? with
    | none => rfl
    | some first => exact congrArg some (h.unionSlot_behind schema hg hfirst)
  unfold Schema.unionSlots
  rw [h.unions_behind, hslots, List.mapM_map]
  exact mapM_map_right id UnionSlot.later _

theorem wireEntry?_behind (schema : Schema) (slots : List UnionSlot) (place : Nat) (f : Field) :
    schema.wireEntry? (s.behind k identity) (slots.map UnionSlot.later) (place + 1) f =
      (schema.wireEntry? s slots place f).map (Option.map WireEntry.later) := by
  unfold Schema.wireEntry?
  rw [h.unionOf?_behind]
  split
  · have hplace : ((fun slot : UnionSlot => slot.position == place + 1) ∘ UnionSlot.later) =
        fun slot => slot.position == place := by
      funext slot
      simp [UnionSlot.later]
    rw [List.find?_map, hplace, ok_map, Option.map_map, Option.map_map]
    rfl
  · -- the shape of a field is not that of a slot
    change (schema.shape? s f).map _ = ((schema.shape? s f).map _).map _
    cases hshape : schema.shape? s f with
    | error e => rfl
    | ok shape =>
      rcases Schema.shaped_of_shape? hshape with ⟨-, rfl⟩ | ⟨-, shape, rfl, hshaped⟩
      · rfl
      · cases hshaped <;> rfl

/-- The constant has no entry, and those of the other fields come after its place. -/
theorem wireEntries_behind (schema : Schema) (slots : List UnionSlot) :
    schema.wireEntries (s.behind k identity) (slots.map UnionSlot.later) =
      (schema.wireEntries s slots).map fun entries => none :: entries.map (Option.map .later) := by
  obtain ⟨value, hvalue⟩ := Field.disposition_of_isConst h.isConst
  have hself : schema.wireEntry? (s.behind k identity) (slots.map UnionSlot.later) 0 k =
      .ok none := by
    unfold Schema.wireEntry?
    rw [h.unionOf?_behind, h.unionOf?_self]
    simp [Schema.shape?, hvalue]
  have hrest : (s.fields.zipIdx 1).mapM (fun p =>
        schema.wireEntry? (s.behind k identity) (slots.map UnionSlot.later) p.2 p.1) =
      (schema.wireEntries s slots).map (List.map (Option.map .later)) := by
    rw [List.zipIdx_succ, List.mapM_map]
    refine Eq.trans ?_ (mapM_map_right _ _ _)
    exact mapM_congr_left fun p _ => h.wireEntry?_behind schema slots p.2 p.1
  unfold Schema.wireEntries at hrest ⊢
  rw [show (s.behind k identity).fields = k :: s.fields from rfl, List.zipIdx_cons, List.mapM_cons]
  simp only [hself, hrest, ok_bind]
  cases s.fields.zipIdx.mapM fun p => schema.wireEntry? s slots p.2 p.1 <;> rfl

/-! ## Steps that look back -/

theorem slotReady_behind (slot : UnionSlot) :
    (s.behind k identity).slotReady slot.later = s.slotReady slot + 1 := by
  unfold slotReady
  rw [show slot.later.conditionField = slot.conditionField from rfl]
  by_cases htested : slot.conditionField = k.name
  · -- no field of the struct has this name, and the constant stands before the slot
    rw [htested, position?_front, h.position?_self]
    exact Nat.max_eq_right (Nat.zero_le _)
  · rw [position?_behind htested]
    cases s.position? slot.conditionField with
    | none => rfl
    | some p => exact Nat.add_max_add_right p slot.position 1

theorem targetReady_behind (slots : List UnionSlot) (target : String) (place : Nat) :
    max (place + 1) ((s.behind k identity).targetReady (slots.map UnionSlot.later) target
        (place + 1)) =
      max place (s.targetReady slots target place) + 1 := by
  unfold targetReady
  have hfind : (slots.map UnionSlot.later).find?
        (fun slot => slot.members.any fun m => m.field == target) =
      (slots.find? fun slot => slot.members.any fun m => m.field == target).map
        UnionSlot.later := List.find?_map
  rw [hfind]
  cases slots.find? fun slot => slot.members.any fun m => m.field == target with
  | some slot =>
    simp only [Option.map_some, h.slotReady_behind]
    exact Nat.add_max_add_right ..
  | none =>
    simp only [Option.map_none]
    by_cases htarget : target = k.name
    · rw [htarget, position?_front, h.position?_self]
      simp
    · rw [position?_behind htarget]
      cases s.position? target with
      | none => simp
      | some p => exact Nat.add_max_add_right ..

theorem resolveSteps_behind (slots : List UnionSlot) :
    (s.behind k identity).resolveSteps (slots.map UnionSlot.later) =
      (s.resolveSteps slots).map fun p => (p.1 + 1, p.2) := by
  unfold resolveSteps
  rw [List.map_map, List.map_map]
  refine List.map_congr_left fun slot _ => ?_
  exact Prod.ext (h.slotReady_behind slot) rfl

theorem sizeOfSteps_behind (slots : List UnionSlot) :
    (s.behind k identity).sizeOfSteps (slots.map UnionSlot.later) =
      (s.sizeOfSteps slots).map fun p => (p.1 + 1, p.2) := by
  unfold sizeOfSteps
  rw [show (s.behind k identity).fields = k :: s.fields from rfl, List.zipIdx_cons,
    List.filterMap_cons_none (by simp [Field.sizeOfTarget?_of_isConst h.isConst]),
    List.zipIdx_succ, List.filterMap_map, List.map_filterMap]
  refine List.filterMap_congr fun p _ => ?_
  obtain ⟨f, place⟩ := p
  cases htarget : f.sizeOfTarget? with
  | none => simp [htarget]
  | some target => simp [htarget, h.targetReady_behind]

theorem deferredAt_behind (slots : List UnionSlot) (place : Nat) :
    (s.behind k identity).deferredAt (slots.map UnionSlot.later) (place + 1) =
      s.deferredAt slots place := by
  unfold deferredAt
  rw [h.resolveSteps_behind, h.sizeOfSteps_behind, ← List.map_append, List.filter_map,
    List.map_map]
  exact congrArg _ (List.filter_congr fun p _ => by simp)

theorem deferredAt_front (slots : List UnionSlot) :
    (s.behind k identity).deferredAt (slots.map UnionSlot.later) 0 = [] := by
  unfold deferredAt
  rw [h.resolveSteps_behind, h.sizeOfSteps_behind, ← List.map_append, List.filter_map]
  simp

theorem decodeSteps_behind (slots : List UnionSlot) (entries : List (Option WireEntry)) :
    (s.behind k identity).decodeSteps (slots.map UnionSlot.later)
        (none :: entries.map (Option.map .later)) = s.decodeSteps slots entries := by
  unfold decodeSteps
  rw [List.zipIdx_cons, List.flatMap_cons, List.zipIdx_succ, List.zipIdx_map, List.map_map,
    List.flatMap_map]
  -- at the constant's place there is nothing to do, and what is done at another place is the same
  simp only [h.deferredAt_front, Option.map_none, Option.toList_none, List.nil_append]
  refine List.flatMap_congr fun p _ => ?_
  obtain ⟨entry, place⟩ := p
  cases entry with
  | none => simp [h.deferredAt_behind]
  | some e =>
    simp [h.deferredAt_behind, h.decodeOp_behind, WireEntry.decodeOp_later, WireEntry.step_later]

theorem planOf_behind (schema : Schema) (initializers : List Initializer) :
    schema.planOf (s.behind k identity) initializers = schema.planOf s initializers := by
  unfold Schema.planOf
  rw [h.unionSlots_behind]
  cases schema.unionSlots s with
  | error e => rfl
  | ok slots =>
    rw [ok_map, ok_bind, ok_bind, h.wireEntries_behind]
    cases schema.wireEntries s slots with
    | error e => rfl
    | ok entries =>
      rw [ok_map, ok_bind, ok_bind]
      have hpresent : (none :: entries.map (Option.map WireEntry.later)).filterMap id =
          (entries.filterMap id).map WireEntry.later := by
        rw [List.filterMap_cons_none rfl, List.filterMap_map, List.map_filterMap]
        rfl
      have hsize : (fun e : WireEntry => e.step e.sizeOp) ∘ WireEntry.later =
          fun e => e.step e.sizeOp := by
        funext e
        rw [Function.comp_apply, e.step_later, e.sizeOp_later]
      have hencode : (fun e : WireEntry => e.step (e.encodeOp (s.behind k identity))) ∘
          WireEntry.later = fun e => e.step (e.encodeOp s) := by
        funext e
        rw [Function.comp_apply, e.step_later, e.encodeOp_later, h.encodeOp_behind]
      simp only [hpresent, List.map_map, hsize, hencode, h.decodeSteps_behind]
      rfl

end Struct.Spares

end WireLayout
