import WireLayout.Codec.Encode
import WireLayout.Proofs.DecodeDepth

/-!
# Reading place by place

A struct is read place by place: at the place of a field its entry is read, then the unions are
resolved whose tested field is now known, then the promised sizes are compared whose target is now
known. So every name is settled at one place, before which the record lacks it and after which
nothing changes it.
-/

namespace WireLayout

/-! ## Slots -/

namespace Struct

/-- No two unions test the same field. -/
theorem nodup_unions (s : Struct) : (s.unions.map (·.conditionField)).Nodup :=
  s.nodup_groups.sublist (List.Sublist.map _ List.filter_sublist)

/-- The place after which the value of a name is known. -/
def ready (s : Struct) (slots : List UnionSlot) (name : String) : Nat := s.targetReady slots name 0

/-- The slots whose member is known after a place. -/
def slotsAt (s : Struct) (slots : List UnionSlot) (place : Nat) : List UnionSlot :=
  slots.filter fun slot => s.slotReady slot == place

/-- The steps that compare promised sizes after a place. -/
def checksAt (s : Struct) (slots : List UnionSlot) (place : Nat) : List (Step DecodeOp) :=
  ((s.sizeOfSteps slots).filter fun p => p.1 == place).map (·.2)

variable {s : Struct} {slots : List UnionSlot}

theorem deferredAt_eq (place : Nat) :
    s.deferredAt slots place =
      (s.slotsAt slots place).map resolveStep ++ s.checksAt slots place := by
  unfold deferredAt slotsAt checksAt resolveSteps
  rw [List.filter_append, List.map_append, List.filter_map, List.map_map]
  rfl

theorem mem_slotsAt {slot : UnionSlot} {place : Nat} :
    slot ∈ s.slotsAt slots place ↔ slot ∈ slots ∧ s.slotReady slot = place := by
  simp [slotsAt]

/-- A promised size is compared after the field that promises it and after its target. -/
theorem exists_of_mem_checksAt {place : Nat} {step : Step DecodeOp}
    (h : step ∈ s.checksAt slots place) : ∃ i f target, s.fields[i]? = some f ∧
      f.sizeOfTarget? = some target ∧ i ≤ place ∧ s.ready slots target ≤ place ∧
      step = f.checkStep target := by
  obtain ⟨⟨i, step'⟩, hmem, hstep⟩ := List.mem_map.mp h
  obtain rfl : step' = step := hstep
  obtain ⟨hmem, hplace⟩ := List.mem_filter.mp hmem
  obtain ⟨j, f, target, hf, htarget, heq⟩ := exists_of_mem_sizeOfSteps hmem
  obtain ⟨rfl, rfl⟩ := Prod.mk.inj heq
  have hmax : max j (s.targetReady slots target j) = place := by simpa using hplace
  have hready : s.ready slots target ≤ s.targetReady slots target j := by
    unfold ready targetReady
    split
    · exact Nat.le_refl _
    · cases s.position? target with
      | none => exact Nat.zero_le _
      | some p => exact Nat.le_refl _
  exact ⟨j, f, target, hf, htarget, by omega, by omega, rfl⟩

/-- A promised size is compared at the first such place. -/
theorem mem_checksAt {i : Nat} {f : Field} (hf : s.fields[i]? = some f) {target : String}
    (htarget : f.sizeOfTarget? = some target) :
    f.checkStep target ∈ s.checksAt slots (max i (s.targetReady slots target i)) := by
  refine List.mem_map.mpr ⟨(max i (s.targetReady slots target i), _), ?_, rfl⟩
  refine List.mem_filter.mpr ⟨List.mem_filterMap.mpr ⟨(f, i), ?_, ?_⟩, by simp⟩
  · exact List.mem_zipIdx_iff_getElem?.mpr hf
  · exact Option.map_eq_some_iff.mpr ⟨target, htarget, rfl⟩

/-- A slot's member is known no earlier than the slot is read. -/
theorem position_le_slotReady (slot : UnionSlot) : slot.position ≤ s.slotReady slot := by
  unfold slotReady
  split
  · exact Nat.le_max_right _ _
  · exact Nat.le_refl _

/-- A slot's member is known no earlier than the field that its members test. -/
theorem tested_le_slotReady {slot : UnionSlot} {i : Nat}
    (h : s.position? slot.conditionField = some i) : i ≤ s.slotReady slot := by
  unfold slotReady
  rw [h]
  exact Nat.le_max_left _ _

end Struct

/-! ## Steps by place -/

namespace Struct

/-- The step of the entry at a place. -/
def entryStep (s : Struct) (entries : List (Option WireEntry)) (place : Nat) :
    List (Step DecodeOp) :=
  (entries[place]?.join.map fun e => e.step (e.decodeOp s)).toList

/-- The steps at a place. -/
def stepsAt (s : Struct) (slots : List UnionSlot) (entries : List (Option WireEntry)) (place : Nat) :
    List (Step DecodeOp) := s.entryStep entries place ++ s.deferredAt slots place

variable {s : Struct} {slots : List UnionSlot} {entries : List (Option WireEntry)}

theorem mem_entryStep {place : Nat} {step : Step DecodeOp} :
    step ∈ s.entryStep entries place ↔
      ∃ e, entries[place]? = some (some e) ∧ step = e.step (e.decodeOp s) := by
  unfold entryStep
  rcases entries[place]? with _ | _ | e
  · simp
  · simp
  · simp

/-- A struct is read place by place. -/
theorem decodeSteps_eq :
    s.decodeSteps slots entries = (List.range entries.length).flatMap (s.stepsAt slots entries) := by
  have hplaces : entries.zipIdx =
      (List.range entries.length).map fun i => (entries[i]?.join, i) := by
    refine List.ext_getElem (by simp) fun i hi hi' => ?_
    have hlt : i < entries.length := by simpa using hi
    simp [List.getElem?_eq_getElem hlt]
  unfold decodeSteps
  rw [hplaces, List.flatMap_map]
  rfl

/-- Where a step is in a decode plan: at a place, with the steps of the earlier places before it, and
those at its own place that precede it there. -/
theorem split_stepsAt {before after : List (Step DecodeOp)} {step : Step DecodeOp}
    (h : s.decodeSteps slots entries = before ++ step :: after) :
    ∃ place < entries.length, ∃ front back,
      s.stepsAt slots entries place = front ++ step :: back ∧
      before = (List.range place).flatMap (s.stepsAt slots entries) ++ front := by
  rw [decodeSteps_eq] at h
  obtain ⟨places, place, later, front, back, hrange, hat, rfl⟩ := flatMap_split h
  have hget : (List.range entries.length)[places.length]? = some place := by
    rw [hrange]
    simp
  obtain ⟨hlt, hplace⟩ := List.getElem?_eq_some_iff.mp hget
  rw [List.getElem_range] at hplace
  rw [List.length_range] at hlt
  have hplaces : places = List.range place := by
    have htake := congrArg (List.take places.length) hrange
    rw [List.take_left, List.take_range, Nat.min_eq_left (Nat.le_of_lt hlt), hplace] at htake
    exact htake.symm
  exact ⟨place, hplace ▸ hlt, front, back, hat, by rw [hplaces]⟩

end Struct

/-- The names whose values an operation settles. -/
def DecodeOp.settles (field : String) : DecodeOp → List String
  | .resolveUnion members => members.map (·.field)
  | .checkSizeOf .. => []
  | .union _ => []
  | _ => [field]

/-- No step of an entry looks back. -/
theorem WireEntry.isDeferred_decodeOp (s : Struct) (e : WireEntry) :
    (e.decodeOp s).isDeferred = false := by
  unfold decodeOp
  cases e.shape with
  | leaf leaf => dsimp only; split <;> rfl
  | _ => rfl

/-- A field of its own settles its own name. -/
theorem Schema.Shaped.eq_of_settles {schema : Schema} {s : Struct} {f : Field} {shape : WireShape}
    (h : schema.Shaped s f shape) {role : Role} {guard : Option Condition} {name : String}
    (hname : name ∈ (WireEntry.decodeOp s { field := f.name, role, guard, shape }).settles f.name) :
    name = f.name := by
  cases h with
  | leaf _ _ =>
    simp only [WireEntry.decodeOp] at hname
    split at hname <;> simpa [DecodeOp.settles] using hname
  | _ => simpa [WireEntry.decodeOp, DecodeOp.settles] using hname

namespace Schema.Planned

variable {schema : Schema} {s : Struct} {plan : Plan} {slots : List UnionSlot}
  {entries : List (Option WireEntry)}

/-- A slot belongs to a union. -/
theorem union_of_slot (hp : schema.Planned s plan slots entries) {slot : UnionSlot}
    (h : slot ∈ slots) : ∃ g ∈ s.unions, schema.SlotOf s g slot := forall₂_mem_right hp.unions h

theorem nodup_tested (hp : schema.Planned s plan slots entries) :
    (slots.map (·.conditionField)).Nodup := by
  have hmap : s.unions.map (·.conditionField) = slots.map (·.conditionField) :=
    forall₂_map_eq hp.unions fun g slot hslot => hslot.tested.symm
  exact hmap ▸ s.nodup_unions

/-- No slot is there twice. -/
theorem nodup_slots (hp : schema.Planned s plan slots entries) : slots.Nodup :=
  List.Nodup.of_map _ hp.nodup_tested

/-- Slots that test the same field are the same. -/
theorem slot_unique (hp : schema.Planned s plan slots entries) {slot slot' : UnionSlot}
    (h : slot ∈ slots) (h' : slot' ∈ slots) (heq : slot.conditionField = slot'.conditionField) :
    slot = slot' := List.inj_on_of_nodup_map hp.nodup_tested h h' heq

/-- A member of a slot is a field that a union holds, and its condition tests the slot's field. -/
theorem member_of_slot (hp : schema.Planned s plan slots entries) (hs : s.WellFormed schema.types)
    {slot : UnionSlot} (h : slot ∈ slots) {m : UnionMember} (hm : m ∈ slot.members) :
    ∃ f ∈ s.fields, f.name = m.field ∧ f.isStored = true ∧ f.condition = some m.guard ∧
      m.guard.field = slot.conditionField ∧ schema.ElementOf f.typeName m.element ∧
      ∃ g, s.unionOf? f.name = some g ∧ schema.SlotOf s g slot := by
  obtain ⟨g, hg, hslot⟩ := hp.union_of_slot h
  obtain ⟨name, hname, hmember⟩ := forall₂_mem_right hslot.members hm
  obtain ⟨f, hf, hfname, hstored, hcond, helem⟩ := hmember.field
  have hfield : m.guard.field = slot.conditionField := hmember.tested.trans hslot.tested.symm
  refine ⟨f, hf, hfname.trans hmember.named.symm, hstored, hcond, hfield, helem, g, ?_, hslot⟩
  rw [Struct.unionOf?_eq_some_iff hs.names hf]
  refine ⟨?_, m.guard, hcond, ?_, (Struct.mem_unions.mp hg).2⟩
  · exact Field.isConst_of_isStored hstored
  · rw [hmember.tested]
    exact Struct.eq_groupOf_of_mem (Struct.mem_unions.mp hg).1

/-- The members of a slot all test the slot's field. -/
theorem guard_of_slot (hp : schema.Planned s plan slots entries) (hs : s.WellFormed schema.types)
    {slot : UnionSlot} (h : slot ∈ slots) :
    ∀ m ∈ slot.members, m.guard.field = slot.conditionField := by
  intro m hm
  obtain ⟨-, -, -, -, -, htest, -⟩ := hp.member_of_slot hs h hm
  exact htest

/-- A name that no union has is not that of a slot's member. -/
theorem not_member (hp : schema.Planned s plan slots entries) (hs : s.WellFormed schema.types)
    {slot : UnionSlot} (h : slot ∈ slots) {name : String} (hunion : s.unionOf? name = none) :
    name ∉ slot.members.map (·.field) := by
  intro hmem
  obtain ⟨m, hm, hname⟩ := List.mem_map.mp hmem
  obtain ⟨f, -, hn, -, -, -, -, g, hg, -⟩ := hp.member_of_slot hs h hm
  rw [hn, hname, hunion] at hg
  cases hg

/-- A field that a union holds is a member of a slot. -/
theorem slot_of_union (hp : schema.Planned s plan slots entries) (hs : s.WellFormed schema.types)
    {f : Field} (hf : f ∈ s.fields) {g : ConditionGroup} (hg : s.unionOf? f.name = some g) :
    ∃ slot ∈ slots, schema.SlotOf s g slot ∧ ∃ m ∈ slot.members, m.field = f.name ∧
      f.condition = some m.guard := by
  have hmem := List.mem_of_find?_eq_some hg
  obtain ⟨slot, hslot, hof⟩ := forall₂_mem_left hp.unions hmem
  have hname : f.name ∈ g.members := by simpa using List.find?_some hg
  obtain ⟨m, hm, hmember⟩ := forall₂_mem_left hof.members hname
  obtain ⟨f', hf', hn, -, hcond, -⟩ := hmember.field
  obtain rfl := List.inj_on_of_nodup_map hs.names hf' hf hn
  exact ⟨slot, hslot, hof, m, hm, hmember.named, hcond⟩

/-- A field that does not hold a value of its own is not in a union. -/
theorem unionOf?_of_not_stored (hp : schema.Planned s plan slots entries)
    (hs : s.WellFormed schema.types) {f : Field} (hf : f ∈ s.fields) (hstored : f.isStored = false) :
    s.unionOf? f.name = none := by
  cases hunion : s.unionOf? f.name with
  | none => rfl
  | some u =>
    obtain ⟨slot, hslot, -, m, hm, hmname, -⟩ := hp.slot_of_union hs hf hunion
    obtain ⟨f', hf', hn', hstored', -⟩ := hp.member_of_slot hs hslot hm
    obtain rfl := List.inj_on_of_nodup_map hs.names hf' hf (hn'.trans hmname)
    rw [hstored] at hstored'
    cases hstored'

/-- A field of its own is ready in its place. -/
theorem ready_of_own (hp : schema.Planned s plan slots entries) (hs : s.WellFormed schema.types)
    {i : Nat} {f : Field} (hf : s.fields[i]? = some f) (hu : s.unionOf? f.name = none) :
    s.ready slots f.name = i := by
  have hpos := Struct.position?_of_getElem? hs.names hf
  unfold Struct.ready Struct.targetReady
  split
  · rename_i slot hfind
    have hslot := List.mem_of_find?_eq_some hfind
    have hany : (slot.members.any fun m => m.field == f.name) = true := by
      simpa using List.find?_some hfind
    obtain ⟨m, hm, hname⟩ := List.any_eq_true.mp hany
    exact absurd (List.mem_map.mpr ⟨m, hm, by simpa using hname⟩) (hp.not_member hs hslot hu)
  · rw [hpos, Option.getD_some]

/-- Slots that have a member in common are the same. -/
theorem slot_of_member (hp : schema.Planned s plan slots entries) (hs : s.WellFormed schema.types)
    {slot slot' : UnionSlot} (h : slot ∈ slots) (h' : slot' ∈ slots) {m m' : UnionMember}
    (hm : m ∈ slot.members) (hm' : m' ∈ slot'.members) (hname : m'.field = m.field) :
    slot' = slot := by
  obtain ⟨f, hf, hn, -, hc, ht, -⟩ := hp.member_of_slot hs h hm
  obtain ⟨f', hf', hn', -, hc', ht', -⟩ := hp.member_of_slot hs h' hm'
  obtain rfl := List.inj_on_of_nodup_map hs.names hf' hf (hn'.trans (hname.trans hn.symm))
  rw [hc] at hc'
  exact hp.slot_unique h' h (by rw [← ht, ← ht', Option.some.inj hc'])

/-- A member of a slot is ready when the slot is. -/
theorem ready_of_member (hp : schema.Planned s plan slots entries) (hs : s.WellFormed schema.types)
    {slot : UnionSlot} (h : slot ∈ slots) {m : UnionMember} (hm : m ∈ slot.members) :
    s.ready slots m.field = s.slotReady slot := by
  unfold Struct.ready Struct.targetReady
  split
  · rename_i slot' hfind
    have hslot' := List.mem_of_find?_eq_some hfind
    have hany : (slot'.members.any fun x => x.field == m.field) = true := by
      simpa using List.find?_some hfind
    obtain ⟨m', hm', hname⟩ := List.any_eq_true.mp hany
    rw [hp.slot_of_member hs h hslot' hm hm' (by simpa using hname)]
  · rename_i hfind
    have hnone := List.find?_eq_none.mp hfind slot h
    exact absurd (List.any_eq_true.mpr ⟨m, hm, by simp⟩) hnone

/-- The field that a slot's members test is a plain field of integer type in a place that is not
after the slot's resolution. -/
theorem tested_of_slot (hp : schema.Planned s plan slots entries) (hs : s.WellFormed schema.types)
    {slot : UnionSlot} (h : slot ∈ slots) : ∃ k f, s.fields[k]? = some f ∧
      f.name = slot.conditionField ∧ f.Testable schema.types ∧ k ≤ s.slotReady slot := by
  obtain ⟨g, hg, hof⟩ := hp.union_of_slot h
  obtain ⟨f, hf, -, -, c, hc, htest⟩ :=
    Struct.field_of_mem_members (Struct.mem_unions.mp hg).1 (List.mem_of_mem_head? hof.first)
  obtain ⟨t, ht, hname, htestable⟩ := hs.tested f hf c hc
  obtain ⟨k, hk⟩ := List.mem_iff_getElem?.mp ht
  have hfield : t.name = slot.conditionField := hname.trans (htest.trans hof.tested.symm)
  have hpos := Struct.position?_of_getElem? hs.names hk
  rw [hfield] at hpos
  exact ⟨k, t, hk, hfield, htestable, Struct.tested_le_slotReady hpos⟩

/-- The place of a slot and the place of its resolution are places of fields. -/
theorem slotReady_lt (hp : schema.Planned s plan slots entries) {slot : UnionSlot}
    (h : slot ∈ slots) :
    slot.position < entries.length ∧ s.slotReady slot < entries.length := by
  obtain ⟨g, hg, hof⟩ := hp.union_of_slot h
  obtain ⟨f, hf, -⟩ := Struct.getElem?_of_position? hof.position
  have hpos := (List.getElem?_eq_some_iff.mp hf).1
  rw [hp.length]
  refine ⟨hpos, ?_⟩
  unfold Struct.slotReady
  split
  · rename_i k hk
    obtain ⟨t, ht, -⟩ := Struct.getElem?_of_position? hk
    exact Nat.max_lt.mpr ⟨(List.getElem?_eq_some_iff.mp ht).1, hpos⟩
  · exact hpos

/-- The place after which a field is there is the place of a field. -/
theorem targetReady_lt (hp : schema.Planned s plan slots entries) {i : Nat}
    (hi : i < entries.length) (target : String) : s.targetReady slots target i < entries.length := by
  unfold Struct.targetReady
  split
  · rename_i slot hfind
    exact (hp.slotReady_lt (List.mem_of_find?_eq_some hfind)).2
  · cases hpos : s.position? target with
    | none => exact hi
    | some k =>
      obtain ⟨t, ht, -⟩ := Struct.getElem?_of_position? hpos
      exact hp.length ▸ (List.getElem?_eq_some_iff.mp ht).1

/-- In the place of a slot lies the field of its first member. -/
theorem first_of_slot (hp : schema.Planned s plan slots entries) {slot : UnionSlot}
    (h : slot ∈ slots) : ∃ f, s.fields[slot.position]? = some f ∧ f.name = slot.name ∧
      ∃ m ∈ slot.members, m.field = f.name := by
  obtain ⟨g, hg, hof⟩ := hp.union_of_slot h
  obtain ⟨f, hf, hname⟩ := Struct.getElem?_of_position? hof.position
  obtain ⟨m, hm, hmember⟩ := forall₂_mem_left hof.members (List.mem_of_mem_head? hof.first)
  exact ⟨f, hf, hname, m, hm, hmember.named.trans hname.symm⟩

/-- The field in the place of a slot is one that a union holds. -/
theorem unionOf?_of_slot (hp : schema.Planned s plan slots entries) (hs : s.WellFormed schema.types)
    {slot : UnionSlot} (h : slot ∈ slots) {f : Field} (hf : s.fields[slot.position]? = some f) :
    ∃ g, s.unionOf? f.name = some g := by
  obtain ⟨f', hf', -, m, hm, hname⟩ := hp.first_of_slot h
  rw [hf] at hf'
  obtain rfl := Option.some.inj hf'
  obtain ⟨g, hg, hn, -, -, -, -, u, hu, -⟩ := hp.member_of_slot hs h hm
  exact ⟨u, hname ▸ hn ▸ hu⟩

/-- Slots in the same place are the same. -/
theorem slot_of_position (hp : schema.Planned s plan slots entries) (hs : s.WellFormed schema.types)
    {slot slot' : UnionSlot} (h : slot ∈ slots) (h' : slot' ∈ slots)
    (hpos : slot'.position = slot.position) : slot' = slot := by
  obtain ⟨f, hf, -, m, hm, hname⟩ := hp.first_of_slot h
  obtain ⟨f', hf', -, m', hm', hname'⟩ := hp.first_of_slot h'
  rw [hpos, hf] at hf'
  cases hf'
  exact hp.slot_of_member hs h h' hm hm' (hname'.trans hname.symm)

/-- Slots of the same name are the same. -/
theorem slot_of_name (hp : schema.Planned s plan slots entries) (hs : s.WellFormed schema.types)
    {slot slot' : UnionSlot} (h : slot ∈ slots) (h' : slot' ∈ slots)
    (hname : slot'.name = slot.name) : slot' = slot := by
  obtain ⟨g, -, hslot⟩ := hp.union_of_slot h
  obtain ⟨g', -, hslot'⟩ := hp.union_of_slot h'
  have hpos := hslot'.position
  rw [hname, hslot.position] at hpos
  exact hp.slot_of_position hs h h' (Option.some.inj hpos).symm

/-- In the place of a slot lies its entry. -/
theorem entry_of_slot (hp : schema.Planned s plan slots entries) (hs : s.WellFormed schema.types)
    {slot : UnionSlot} (h : slot ∈ slots) :
    entries[slot.position]? = some (some (Schema.slotEntry slot)) := by
  obtain ⟨f, hf, -⟩ := hp.first_of_slot h
  obtain ⟨g, hg⟩ := hp.unionOf?_of_slot hs h hf
  obtain ⟨e, he, hentry⟩ := hp.places _ _ hf
  cases hentry with
  | const _ hnone => rw [hg] at hnone; cases hnone
  | own _ hnone _ => rw [hg] at hnone; cases hnone
  | member _ hno => exact absurd rfl (hno slot h)
  | slot hslot' hpos _ =>
    rw [hp.slot_of_position hs h hslot' hpos] at he
    exact he

/-- What the entry in a place settles is ready there. -/
theorem ready_of_entry (hp : schema.Planned s plan slots entries) (hs : s.WellFormed schema.types)
    {i : Nat} {e : WireEntry} (he : entries[i]? = some (some e)) {name : String}
    (hname : name ∈ (e.decodeOp s).settles e.field) : s.ready slots name = i := by
  have hi : i < s.fields.length := hp.length ▸ (List.getElem?_eq_some_iff.mp he).1
  obtain ⟨e', he', hentry⟩ := hp.places i _ (List.getElem?_eq_getElem hi)
  rw [he] at he'
  cases he'
  cases hentry with
  | slot _ _ _ => cases hname
  | own _ hunion hshape =>
    have hready := hp.ready_of_own hs (List.getElem?_eq_getElem hi) hunion
    rw [hshape.eq_of_settles hname, hready]

/-- A slot that is resolved at a place settles names that are ready there. -/
theorem ready_of_slotsAt (hp : schema.Planned s plan slots entries) (hs : s.WellFormed schema.types)
    {i : Nat} {slot : UnionSlot} (hslot : slot ∈ s.slotsAt slots i) {name : String}
    (hname : name ∈ slot.members.map (·.field)) : s.ready slots name = i := by
  obtain ⟨hmem, hready⟩ := Struct.mem_slotsAt.mp hslot
  obtain ⟨m, hm, rfl⟩ := List.mem_map.mp hname
  rw [hp.ready_of_member hs hmem hm, hready]

/-- A step that finds out which member a slot holds is that of a slot. -/
theorem slot_of_resolveUnion (hp : schema.Planned s plan slots entries) {step : Step DecodeOp}
    (hstep : step ∈ plan.decode) {members : List UnionMember} (hop : step.op = .resolveUnion members) :
    ∃ slot ∈ slots, step.field = slot.name ∧ members = slot.members := by
  rw [hp.decode] at hstep
  rcases Struct.mem_decodeSteps hstep with ⟨e, -, rfl⟩ | ⟨place, hstep⟩
  · have htaking := e.isDeferred_decodeOp s
    have hop' : e.decodeOp s = .resolveUnion members := hop
    rw [hop'] at htaking
    cases htaking
  · obtain ⟨slot, hslot, -, rfl⟩ | ⟨-, f, target, -, -, -, rfl⟩ := Struct.deferredAt_cases hstep
    · exact ⟨slot, hslot, rfl, (DecodeOp.resolveUnion.inj hop).symm⟩
    · cases hop

end Schema.Planned

/-! ## What a step changes -/

/-- Whether two structs that are being read agree about a name. -/
structure Progress.Agree (name : String) (p p' : Progress) : Prop where
  record : p'.record.get? name = p.record.get? name
  scratch : p'.scratch.lookup name = p.scratch.lookup name

namespace Progress.Agree

variable {name : String} {p p' p'' : Progress}

theorem refl (name : String) (p : Progress) : Agree name p p := ⟨rfl, rfl⟩

theorem trans (h : Agree name p p') (h' : Agree name p' p'') : Agree name p p'' :=
  ⟨h'.record.trans h.record, h'.scratch.trans h.scratch⟩

theorem note {field : String} (h : name ≠ field) (p : Progress) (n : Int) :
    Agree name p (p.note field n) := ⟨rfl, by rw [Progress.note, Ordered.lookup_cons, if_neg h]⟩

theorem noteValue {field : String} (h : name ≠ field) (p : Progress) (v : Value) :
    Agree name p (p.noteValue field v) := by
  cases v with
  | int n => exact note h p n
  | _ => exact refl name p

theorem store {field : String} (h : name ≠ field) (p : Progress) (v : Value) :
    Agree name p (p.store field v) := ⟨Record.get?_insert_of_ne _ _ h, rfl⟩

theorem moveTo (h : Agree name p p') (cursor : Cursor) : Agree name p (p'.moveTo cursor) :=
  ⟨h.record, h.scratch⟩

end Progress.Agree

namespace Codec

variable {c : Codec} {d : Decoder}

theorem Performs.agree {s : Struct} {plan : Plan} {field : String} {p p' : Progress}
    {op : DecodeOp} (h : c.Performs d s plan field p op p') {name : String}
    (hname : name ∉ op.settles field) : p.Agree name p' := by
  have hsettled : op.settles field = [field] → name ≠ field := by
    intro hs hne
    rw [hs] at hname
    exact hname (List.mem_singleton.mpr hne)
  cases h with
  | leaf _ =>
    have hne := hsettled rfl
    exact ((Progress.Agree.noteValue hne p _).trans (Progress.Agree.store hne _ _)).moveTo _
  | length _ => exact (Progress.Agree.note (hsettled rfl) p _).moveTo _
  | reserved _ _ => exact (Progress.Agree.note (hsettled rfl) p _).moveTo _
  | nested _ => exact (Progress.Agree.store (hsettled rfl) p _).moveTo _
  | array _ _ => exact (Progress.Agree.store (hsettled rfl) p _).moveTo _
  | arraySized _ _ _ _ => exact (Progress.Agree.store (hsettled rfl) p _).moveTo _
  | fill _ => exact (Progress.Agree.store (hsettled rfl) p _).moveTo _
  | check _ _ _ => exact .refl name p
  | union _ => exact ⟨rfl, rfl⟩
  | vacant _ => exact .refl name p
  | @member _ _ m v _ _ hm _ =>
    have hne : name ≠ m.field := fun heq => hname (List.mem_map.mpr ⟨m, hm, heq.symm⟩)
    exact (Progress.Agree.noteValue hne p v).trans (Progress.Agree.store hne _ _)

theorem agree_of_readStep {s : Struct} {plan : Plan} {p p' : Progress} {step : Step DecodeOp}
    (h : c.readStep d s plan p step = .ok p') {name : String}
    (hname : name ∉ step.op.settles step.field) : p.Agree name p' := by
  rcases performs_of_readStep h with rfl | hdone
  · exact .refl name p'
  · exact hdone.agree hname

/-- A name that no slot of a list has as a member is left alone by their resolution. -/
theorem agree_of_resolves {s : Struct} {plan : Plan} {l : List UnionSlot} {p p' : Progress}
    (h : (l.map Struct.resolveStep).foldlM (c.readStep d s plan) p = .ok p') {name : String}
    (hname : ∀ slot ∈ l, name ∉ slot.members.map (·.field)) : p.Agree name p' := by
  induction l generalizing p with
  | nil => rw [pure_eq_ok.mp h]; exact .refl name p'
  | cons slot rest ih =>
    rw [List.map_cons, List.foldlM_cons] at h
    obtain ⟨q, hq, h⟩ := bind_eq_ok.mp h
    exact (agree_of_readStep hq (hname slot (by simp))).trans
      (ih h fun x hx => hname x (List.mem_cons_of_mem _ hx))

/-- The resolution of unions changes neither the bytes of unions nor the cursor. -/
theorem kept_of_resolves {s : Struct} {plan : Plan} {l : List UnionSlot} {p p' : Progress}
    (h : (l.map Struct.resolveStep).foldlM (c.readStep d s plan) p = .ok p') :
    p'.slots = p.slots ∧ p'.cursor = p.cursor := by
  induction l generalizing p with
  | nil => rw [pure_eq_ok.mp h]; exact ⟨rfl, rfl⟩
  | cons slot rest ih =>
    rw [List.map_cons, List.foldlM_cons] at h
    obtain ⟨q, hq, h⟩ := bind_eq_ok.mp h
    obtain ⟨hslots, hcursor⟩ := ih h
    simp only [readStep, Struct.resolveStep, Progress.holds, ok_bind, if_true, readOp,
      bind_eq_ok] at hq
    obtain ⟨raw, -, hq⟩ := hq
    rw [hslots, hcursor]
    rcases readUnion_cases hq with rfl | ⟨m, -, v, last, -, rfl⟩
    · exact ⟨rfl, rfl⟩
    · exact ⟨p.slots_noteValue _ _, p.cursor_noteValue _ _⟩

end Codec

/-- Of the fields of a struct of which nothing is read yet only constants are known. -/
theorem Progress.lookup_start {s : Struct} (hs : (s.fields.map (·.name)).Nodup) {f : Field}
    (hf : f ∈ s.fields) (hconst : f.isConst = false) (name : String) (cursor : Cursor) :
    (Progress.start s name cursor).scratch.lookup f.name = none := by
  rw [Progress.start, List.lookup_eq_none_iff]
  intro p hp
  obtain ⟨g, hg, hgp⟩ := List.mem_filterMap.mp hp
  obtain ⟨v, hv, rfl⟩ := Option.map_eq_some_iff.mp hgp
  -- a constant of the same name would be the field itself
  have hne : f.name ≠ g.name := by
    intro hname
    obtain rfl := List.inj_on_of_nodup_map hs hf hg hname
    unfold Field.constValue? at hv
    split at hv
    · rename_i hd
      simp [Field.isConst, hd, Disposition.role] at hconst
    · cases hv
  simpa using hne

/-! ## Members of a slot -/

section Members

variable {members : List UnionMember} {tested : String} {t : Int}

/-- A slot is read as the first member whose condition holds. -/
theorem Codec.readUnion_eq {d : Decoder} {owner : String} {raw : Bytes} {p : Progress}
    (ht : p.scratch.lookup tested = some t) (hm : ∀ m ∈ members, m.guard.field = tested) :
    readUnion d owner raw p members =
      match members.find? fun m => m.guard.holds t with
      | none => .ok p
      | some m => (m.element.read d (Cursor.start raw)).map fun q =>
        (p.noteValue m.field q.1).store m.field q.1 := by
  induction members with
  | nil => rfl
  | cons m rest ih =>
    have hnoted : p.noted owner m.guard.field = .ok t :=
      noted_eq_ok.mpr (hm m (by simp) ▸ ht)
    rw [readUnion, hnoted, ok_bind, List.find?_cons]
    cases hh : m.guard.holds t with
    | true =>
      rw [if_pos rfl]
      dsimp only
      cases m.element.read d (Cursor.start raw) <;> rfl
    | false =>
      rw [if_neg (by decide)]
      exact ih fun x hx => hm x (List.mem_cons_of_mem _ hx)

/-- A slot is written as the first member whose condition holds. -/
theorem Frame.unionBytes_eq {frame : Frame} {m : Measure} {e : Encoder}
    (ht : frame.intOf m tested = .ok t) (hm : ∀ x ∈ members, x.guard.field = tested) :
    frame.unionBytes m e members =
      match members.find? fun x => x.guard.holds t with
      | none => .ok []
      | some x => (frame.value x.field).bind fun v => x.element.write e x.field v := by
  induction members with
  | nil => rfl
  | cons x rest ih =>
    rw [unionBytes, hm x (by simp), ht, ok_bind, List.find?_cons]
    cases hh : x.guard.holds t with
    | true =>
      rw [if_pos rfl]
      rfl
    | false =>
      rw [if_neg (by decide)]
      exact ih fun y hy => hm y (List.mem_cons_of_mem _ hy)

end Members

end WireLayout
