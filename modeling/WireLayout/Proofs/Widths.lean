import Mathlib.Data.List.Perm.Basic
import WireLayout.Proofs.Correspondence

/-!
# Widths

A struct has a fixed size if all that lies on its wire has one: its size is then the sum of the widths
of its entries. The sum is taken over the unions first and the other fields after them, and over the
entries in the order of the wire; both are the same parts in a different order.

How deep the structs of a type nest decides only whether its size is found, not what it is.
-/

namespace WireLayout

/-! ## Sums -/

theorem addSize?_eq_some {a b n : Nat} (h : addSize? a b = some n) : n = a + b := by
  unfold addSize? at h
  split at h
  · exact (Option.some.inj h).symm
  · cases h

theorem mulSize?_eq_some {a b n : Nat} (h : mulSize? a b = some n) : n = a * b := by
  unfold mulSize? at h
  split at h
  · exact (Option.some.inj h).symm
  · cases h

section Sums

variable {α : Type} {size size' : α → Option Nat} {parts : List α} {total n : Nat}

/-- Parts that have a sum have sizes, which add up to it. -/
theorem sumSizes?_eq_some (h : sumSizes? size total parts = some n) :
    (∀ a ∈ parts, ∃ k, size a = some k) ∧
      n = total + (parts.map fun a => (size a).getD 0).sum := by
  induction parts generalizing total with
  | nil =>
    cases h
    simp
  | cons a parts ih =>
    unfold sumSizes? at h
    split at h
    · rename_i more hmore
      obtain ⟨k, hk, hadd⟩ := Option.bind_eq_some_iff.mp hmore
      obtain ⟨hparts, hn⟩ := ih h
      refine ⟨fun b hb => ?_, ?_⟩
      · rcases List.mem_cons.mp hb with rfl | hb
        · exact ⟨k, hk⟩
        · exact hparts b hb
      · rw [hn, addSize?_eq_some hadd, List.map_cons, List.sum_cons, hk, Option.getD_some,
          Nat.add_assoc]
    · cases h

/-- A sum is kept where the sizes of its parts are. -/
theorem sumSizes?_mono (hsize : ∀ a ∈ parts, ∀ k, size a = some k → size' a = some k)
    (h : sumSizes? size total parts = some n) : sumSizes? size' total parts = some n := by
  induction parts generalizing total with
  | nil => exact h
  | cons a parts ih =>
    unfold sumSizes? at h ⊢
    split at h
    · rename_i more hmore
      obtain ⟨k, hk, hadd⟩ := Option.bind_eq_some_iff.mp hmore
      have hmore' : (size' a).bind (addSize? total) = some more := by
        rw [hsize a (by simp) k hk]
        exact hadd
      rw [hmore']
      exact ih (fun b hb => hsize b (List.mem_cons_of_mem _ hb)) h
    · cases h

end Sums

/-! ## The widest member of a union -/

/-- The size of a struct's member, its condition aside. -/
def Struct.memberSize? (sizeOf : String → Option Nat) (s : Struct) (name : String) : Option Nat :=
  (s.field? name).bind fun f => f.sizeWith? sizeOf

theorem Struct.unionSizeWith?_eq (sizeOf : String → Option Nat) (s : Struct) (g : ConditionGroup) :
    s.unionSizeWith? sizeOf g =
      g.members.foldlM (fun widest name => (s.memberSize? sizeOf name).map (max widest)) 0 := by
  unfold unionSizeWith? memberSize?
  congr 1
  funext widest name
  cases s.field? name with
  | none => rfl
  | some f =>
    cases hsize : f.sizeWith? sizeOf <;> simp [hsize]

section Widest

variable {α : Type} {size size' : α → Option Nat} {l : List α} {widest n : Nat}

/-- The widest of some parts is one of them, or what the search began with, and none is wider. -/
theorem foldlM_max_eq_some
    (h : l.foldlM (fun widest a => (size a).map (max widest)) widest = some n) :
    (∀ a ∈ l, ∃ k, size a = some k ∧ k ≤ n) ∧ widest ≤ n ∧
      (n = widest ∨ ∃ a ∈ l, size a = some n) := by
  induction l generalizing widest with
  | nil =>
    cases h
    exact ⟨nofun, Nat.le_refl _, Or.inl rfl⟩
  | cons a l ih =>
    rw [List.foldlM_cons] at h
    obtain ⟨wider, hwider, h⟩ := Option.bind_eq_some_iff.mp h
    obtain ⟨k, hk, rfl⟩ := Option.map_eq_some_iff.mp hwider
    obtain ⟨hparts, hle, hone⟩ := ih h
    refine ⟨fun b hb => ?_, by omega, ?_⟩
    · rcases List.mem_cons.mp hb with rfl | hb
      · exact ⟨k, hk, by omega⟩
      · exact hparts b hb
    · rcases hone with hn | ⟨b, hb, hn⟩
      · rcases Nat.le_total widest k with hmax | hmax
        · exact Or.inr ⟨a, by simp, by rw [hk, hn, Nat.max_eq_right hmax]⟩
        · exact Or.inl (by rw [hn, Nat.max_eq_left hmax])
      · exact Or.inr ⟨b, List.mem_cons_of_mem _ hb, hn⟩

theorem foldlM_max_mono (hsize : ∀ a ∈ l, ∀ k, size a = some k → size' a = some k)
    (h : l.foldlM (fun widest a => (size a).map (max widest)) widest = some n) :
    l.foldlM (fun widest a => (size' a).map (max widest)) widest = some n := by
  induction l generalizing widest with
  | nil => exact h
  | cons a l ih =>
    rw [List.foldlM_cons] at h ⊢
    obtain ⟨wider, hwider, h⟩ := Option.bind_eq_some_iff.mp h
    obtain ⟨k, hk, rfl⟩ := Option.map_eq_some_iff.mp hwider
    refine Option.bind_eq_some_iff.mpr ⟨max widest k, ?_, ?_⟩
    · rw [hsize a (by simp) k hk, Option.map_some]
    · exact ih (fun b hb => hsize b (List.mem_cons_of_mem _ hb)) h

end Widest

/-- Whether this is the size of the largest of a union's members. -/
structure Struct.Widest (s : Struct) (sizeOf : String → Option Nat) (g : ConditionGroup)
    (size : Nat) : Prop where
  /-- Every member has a size, which is no larger. -/
  bound : ∀ name ∈ g.members, ∃ f k, s.field? name = some f ∧ f.sizeWith? sizeOf = some k ∧ k ≤ size
  /-- One member has this size. -/
  attained : ∃ name ∈ g.members, ∃ f, s.field? name = some f ∧ f.sizeWith? sizeOf = some size

theorem Struct.widest_of_unionSizeWith? {s : Struct} {sizeOf : String → Option Nat}
    {g : ConditionGroup} (hg : g ∈ s.groups) {size : Nat}
    (h : s.unionSizeWith? sizeOf g = some size) : s.Widest sizeOf g size := by
  rw [unionSizeWith?_eq] at h
  obtain ⟨hparts, -, hone⟩ := foldlM_max_eq_some h
  constructor
  case bound =>
    intro name hname
    obtain ⟨k, hk, hle⟩ := hparts name hname
    obtain ⟨f, hf, hk⟩ := Option.bind_eq_some_iff.mp hk
    exact ⟨f, k, hf, hk, hle⟩
  case attained =>
    rcases hone with rfl | ⟨name, hname, hn⟩
    · -- all members are empty, and there is one
      obtain ⟨name, hname⟩ := List.exists_mem_of_ne_nil _ (members_ne_nil hg)
      obtain ⟨k, hk, hle⟩ := hparts name hname
      obtain ⟨f, hf, hk⟩ := Option.bind_eq_some_iff.mp hk
      obtain rfl := Nat.le_zero.mp hle
      exact ⟨name, hname, f, hf, hk⟩
    · obtain ⟨f, hf, hn⟩ := Option.bind_eq_some_iff.mp hn
      exact ⟨name, hname, f, hf, hn⟩

/-! ## Sizes at different depths -/

section Mono

variable {sizeOf sizeOf' : String → Option Nat}
  (hsizes : ∀ ty n, sizeOf ty = some n → sizeOf' ty = some n)

include hsizes

theorem Field.sizeWith?_mono {f : Field} {n : Nat} (h : f.sizeWith? sizeOf = some n) :
    f.sizeWith? sizeOf' = some n := by
  unfold sizeWith? at h ⊢
  split
  case h_1 hd => rw [hd] at h; exact h
  case h_2 hd => rw [hd] at h; exact hsizes _ _ h
  case h_3 hd => rw [hd] at h; exact hsizes _ _ h
  case h_4 hd => rw [hd] at h; exact hsizes _ _ h
  case h_5 count hd =>
    rw [hd] at h
    obtain ⟨each, heach, h⟩ := Option.bind_eq_some_iff.mp h
    rw [hsizes _ _ heach]
    exact h
  case h_6 hd => rw [hd] at h; cases h
  case h_7 hd => rw [hd] at h; cases h
  case h_8 hd => rw [hd] at h; cases h

theorem Struct.unionSizeWith?_mono {s : Struct} {g : ConditionGroup} {n : Nat}
    (h : s.unionSizeWith? sizeOf g = some n) : s.unionSizeWith? sizeOf' g = some n := by
  rw [unionSizeWith?_eq] at h ⊢
  refine foldlM_max_mono (fun name _ k hk => ?_) h
  obtain ⟨f, hf, hk⟩ := Option.bind_eq_some_iff.mp hk
  exact Option.bind_eq_some_iff.mpr ⟨f, hf, Field.sizeWith?_mono hsizes hk⟩

theorem Struct.sizeWith?_mono {s : Struct} {n : Nat} (h : s.sizeWith? sizeOf = some n) :
    s.sizeWith? sizeOf' = some n := by
  obtain ⟨slots, hslots, h⟩ := Option.bind_eq_some_iff.mp h
  refine Option.bind_eq_some_iff.mpr ⟨slots, ?_, ?_⟩
  · exact sumSizes?_mono (fun g _ k hk => Struct.unionSizeWith?_mono hsizes hk) hslots
  · refine sumSizes?_mono (fun f _ k hk => ?_) h
    unfold memberSizeWith? at hk ⊢
    split at hk
    · cases hk
    · rename_i hcondition
      rw [if_neg hcondition]
      exact Field.sizeWith?_mono hsizes hk

end Mono

namespace Schema

variable {schema : Schema}

theorem fixedSizeAt?_of_form {ty : String} {form : WireForm}
    (h : schema.types.form? ty = some form) (k : Nat) :
    schema.fixedSizeAt? k ty = some form.width := by
  unfold fixedSizeAt?
  rw [h]

/-- A type that is no struct aside, a size is that of a struct one level deeper. -/
theorem fixedSizeAt?_eq_some {k : Nat} {ty : String} {n : Nat}
    (hform : schema.types.form? ty = none) (h : schema.fixedSizeAt? k ty = some n) :
    ∃ j s, k = j + 1 ∧ schema.struct? ty = some s ∧
      s.sizeWith? (schema.fixedSizeAt? j) = some n := by
  unfold fixedSizeAt? at h
  rw [hform] at h
  cases k with
  | zero => cases h
  | succ j =>
    obtain ⟨s, hs, h⟩ := Option.bind_eq_some_iff.mp h
    exact ⟨j, s, rfl, hs, h⟩

/-- A size that is found at some depth is found at every greater one. -/
theorem fixedSizeAt?_mono {k k' : Nat} (hle : k ≤ k') (ty : String) (n : Nat)
    (h : schema.fixedSizeAt? k ty = some n) : schema.fixedSizeAt? k' ty = some n := by
  induction k generalizing k' ty n with
  | zero =>
    cases hform : schema.types.form? ty with
    | some form =>
      rw [fixedSizeAt?_of_form hform] at h ⊢
      exact h
    | none =>
      obtain ⟨j, s, hj, -⟩ := fixedSizeAt?_eq_some hform h
      cases hj
  | succ k ih =>
    cases hform : schema.types.form? ty with
    | some form =>
      rw [fixedSizeAt?_of_form hform] at h ⊢
      exact h
    | none =>
      obtain ⟨j, s, hj, hs, h⟩ := fixedSizeAt?_eq_some hform h
      cases hj
      obtain ⟨j', rfl⟩ := Nat.exists_eq_add_of_le' (Nat.le_trans (Nat.le_add_left 1 _) hle)
      unfold fixedSizeAt?
      rw [hform, hs]
      exact Struct.sizeWith?_mono (fun ty n => ih (Nat.le_of_succ_le_succ hle) ty n) h

/-- Whether these are sizes of types: those of the types that are no structs, and no others than the
fixed ones. -/
structure Sizing (schema : Schema) (sizeOf : String → Option Nat) : Prop where
  forms : ∀ ty form, schema.types.form? ty = some form → sizeOf ty = some form.width
  fixed : ∀ ty n, sizeOf ty = some n → schema.fixedSize? ty = some n

theorem sizing_fixedSize? (schema : Schema) : schema.Sizing schema.fixedSize? where
  forms _ _ hform := fixedSizeAt?_of_form hform _
  fixed _ _ h := h

theorem sizing_fixedSizeAt? {k : Nat} (hk : k ≤ schema.structs.length) :
    schema.Sizing (schema.fixedSizeAt? k) where
  forms _ _ hform := fixedSizeAt?_of_form hform _
  fixed ty n := fixedSizeAt?_mono hk ty n

end Schema

/-! ## Widths of entries -/

/-- The bytes of an element, if they are always as many. -/
def Element.width? (sizeOf : String → Option Nat) : Element → Option Nat
  | .leaf l => some l.form.width
  | .struct ty => sizeOf ty

/-- The bytes of what lies in a place of the layout, if they are always as many. -/
def WireShape.width? (sizeOf : String → Option Nat) : WireShape → Option Nat
  | .leaf l => some l.form.width
  | .nested ty _ => sizeOf ty
  | .reserved l _ => some l.form.width
  | .array element (.literal count) => (element.width? sizeOf).map fun each => each * count
  | .array _ (.field _) => none
  | .arraySized .. => none
  | .fill _ => none
  | .union slot => some slot.bytes

/-- The bytes of an entry; none, if they are not always as many. -/
def WireEntry.width (sizeOf : String → Option Nat) (e : WireEntry) : Nat :=
  (e.shape.width? sizeOf).getD 0

/-- Whether an entry is always there, and always takes as many bytes. -/
def WireEntry.IsFixed (sizeOf : String → Option Nat) (e : WireEntry) : Prop :=
  e.guard = none ∧ e.shape.width? sizeOf = some (e.width sizeOf)

/-- The bytes that the entry at a place takes. -/
def widthAt (sizeOf : String → Option Nat) (entries : List (Option WireEntry)) (place : Nat) : Nat :=
  (entries[place]?.join.map fun e => e.width sizeOf).getD 0

/-- The places take as many bytes as the entries. -/
theorem sum_widthAt (sizeOf : String → Option Nat) (entries : List (Option WireEntry)) :
    ((List.range entries.length).map (widthAt sizeOf entries)).sum =
      ((entries.filterMap id).map fun e => e.width sizeOf).sum := by
  have hplaces : (List.range entries.length).map (widthAt sizeOf entries) =
      entries.map fun o => (o.map fun e => e.width sizeOf).getD 0 := by
    refine List.ext_getElem (by simp) fun i hi hi' => ?_
    have hlt : i < entries.length := by simpa using hi
    simp [widthAt, List.getElem?_eq_getElem hlt]
  rw [hplaces]
  clear hplaces
  induction entries with
  | nil => rfl
  | cons o rest ih =>
    cases o with
    | none => simpa using ih
    | some e => simpa using ih

/-- Whether an entry is the slot of a union. -/
def WireEntry.isSlot (e : WireEntry) : Bool :=
  match e.shape with
  | .union _ => true
  | _ => false

/-- An entry that is written as a union is a slot. -/
theorem WireEntry.shape_of_encodeOp {s : Struct} {e : WireEntry} {size : Nat}
    {members : List UnionMember} (h : e.encodeOp s = .union size members) :
    ∃ slot, e.shape = .union slot ∧ slot.bytes = size ∧ slot.members = members := by
  unfold encodeOp at h
  cases hshape : e.shape <;> rw [hshape] at h
  case union slot =>
    cases h
    exact ⟨slot, rfl, rfl, rfl⟩
  case leaf l =>
    dsimp only at h
    split at h
    · cases h
    · split at h <;> cases h
  all_goals cases h

/-- An entry that is read as a union is a slot. -/
theorem WireEntry.shape_of_decodeOp {s : Struct} {e : WireEntry} {size : Nat}
    (h : e.decodeOp s = .union size) : ∃ slot, e.shape = .union slot ∧ slot.bytes = size := by
  unfold decodeOp at h
  cases hshape : e.shape <;> rw [hshape] at h
  case union slot =>
    cases h
    exact ⟨slot, rfl, rfl⟩
  case leaf l =>
    dsimp only at h
    split at h <;> cases h
  all_goals cases h

section Widths

variable {schema : Schema} {sizeOf : String → Option Nat} (hsizing : schema.Sizing sizeOf)

include hsizing

theorem Schema.ElementOf.width?_eq {ty : String} {element : Element}
    (h : schema.ElementOf ty element) : element.width? sizeOf = sizeOf ty := by
  cases h with
  | leaf hform => exact (hsizing.forms _ _ hform).symm
  | struct hform hstruct => rfl

/-- A field of its own is as wide as the field is large. -/
theorem Schema.Shaped.width?_of_sizeWith? {s : Struct} {f : Field} {shape : WireShape}
    (h : schema.Shaped s f shape) {n : Nat} (hn : f.sizeWith? sizeOf = some n) :
    shape.width? sizeOf = some n := by
  unfold Field.sizeWith? at hn
  cases h with
  | @leaf l hstored hform =>
    rcases Field.disposition_of_isStored hstored with hd | hd <;>
      (rw [hd] at hn; exact (hsizing.forms _ _ hform).symm.trans hn)
  | nested hstored hform hstruct =>
    rcases Field.disposition_of_isStored hstored with hd | hd <;> (rw [hd] at hn; exact hn)
  | reserved hd hform =>
    rw [hd] at hn
    exact (hsizing.forms _ _ hform).symm.trans hn
  | @array element count hd helem =>
    rw [hd] at hn
    cases count with
    | field name => cases hn
    | literal count =>
      obtain ⟨each, heach, hn⟩ := Option.bind_eq_some_iff.mp hn
      change (element.width? sizeOf).map (fun each => each * count) = some n
      rw [helem.width?_eq hsizing, heach, Option.map_some, mulSize?_eq_some hn]
  | arraySized hd hgroup => rw [hd] at hn; cases hn
  | fill hd helem => rw [hd] at hn; cases hn

/-- A slot is as large as its union, at whatever depth the size of the union is found. -/
theorem Schema.SlotOf.bytes_eq {s : Struct} {g : ConditionGroup} {slot : UnionSlot}
    (h : schema.SlotOf s g slot) {n : Nat} (hn : s.unionSizeWith? sizeOf g = some n) :
    slot.bytes = n := by
  have hfixed : schema.unionSize? s g = some n := Struct.unionSizeWith?_mono hsizing.fixed hn
  rw [h.bytes] at hfixed
  exact Option.some.inj hfixed

namespace Schema.Planned

variable {s : Struct} {plan : Plan} {slots : List UnionSlot} {entries : List (Option WireEntry)}
  (hp : schema.Planned s plan slots entries) (hs : s.WellFormed schema.types)

include hp

omit hsizing in
/-- An entry that is a slot is that of a union. -/
theorem slot_of_shape {e : WireEntry} (he : e ∈ entries.filterMap id) {slot : UnionSlot}
    (hshape : e.shape = .union slot) : slot ∈ slots ∧ e = Schema.slotEntry slot := by
  obtain ⟨i, f, hf, hentry⟩ := hp.exists_of_mem he
  cases hentry with
  | slot hslot hpos hname =>
    cases hshape
    exact ⟨hslot, rfl⟩
  | own hconst hunion hown =>
    obtain rfl : _ = WireShape.union slot := hshape
    cases hown

include hs

/-- A member of a slot is no wider than the slot. -/
theorem width?_of_member (hunions : ∀ g ∈ s.unions, ∃ n, s.unionSizeWith? sizeOf g = some n)
    {slot : UnionSlot} (hslot : slot ∈ slots) {m : UnionMember} (hm : m ∈ slot.members) :
    ∃ k, m.element.width? sizeOf = some k ∧ k ≤ slot.bytes := by
  obtain ⟨f, hf, hname, hstored, -, -, helem, g, hg, hof⟩ := hp.member_of_slot hs hslot hm
  have hunion := List.mem_of_find?_eq_some hg
  have hmember : f.name ∈ g.members := by simpa using List.find?_some hg
  obtain ⟨n, hn⟩ := hunions g hunion
  obtain ⟨f', k, hf', hk, hle⟩ :=
    (Struct.widest_of_unionSizeWith? (Struct.mem_unions.mp hunion).1 hn).bound _ hmember
  obtain rfl := Option.some.inj ((Struct.field?_of_mem hs.names hf).symm.trans hf')
  refine ⟨k, ?_, hof.bytes_eq hsizing hn ▸ hle⟩
  rw [helem.width?_eq hsizing, ← hk]
  unfold Field.sizeWith?
  rcases Field.disposition_of_isStored hstored with hd | hd <;> rw [hd]

omit hsizing in
/-- The entries that are no slots are those of the fields that no union holds, in order. -/
theorem forall₂_separateFields :
    List.Forall₂ (fun f e => e.guard = f.condition ∧ schema.Shaped s f e.shape) s.separateFields
      ((entries.filterMap id).filter fun e => !e.isSlot) := by
  have hplaces : List.Forall₂ (fun f (o : Option WireEntry) => ∃ i e, s.fields[i]? = some f ∧
      schema.EntryOf s slots i f e ∧ o = e.filter fun e => !e.isSlot) s.fields
      (entries.map fun e => e.filter fun e => !e.isSlot) :=
    List.forall₂_map_right_iff.mpr (hp.forall₂_places.imp fun f e ⟨i, hi, hentry⟩ =>
      ⟨i, e, hi, hentry, rfl⟩)
  have hown : (entries.filterMap id).filter (fun e => !e.isSlot) =
      (entries.map fun e => e.filter fun e => !e.isSlot).filterMap id := by
    rw [List.filter_filterMap, List.filterMap_map]
    rfl
  rw [hown]
  refine forall₂_filter_filterMap hplaces ?_
  rintro f - ⟨i, e, hi, hentry, rfl⟩
  have hf := List.mem_of_getElem? hi
  cases hentry with
  | const hconst hunion =>
    refine Or.inl ⟨?_, rfl⟩
    rw [hconst]
    rfl
  | @own shape hconst hunion hshape =>
    refine Or.inr ⟨?_, ⟨f.name, f.disposition.role, f.condition, shape⟩, ?_, rfl, hshape⟩
    · rw [hconst, hunion]
      rfl
    · cases hshape <;> rfl
  | slot hslot hpos hname =>
    obtain ⟨g, hg⟩ := hp.unionOf?_of_slot hs hslot (hpos ▸ hi)
    refine Or.inl ⟨?_, rfl⟩
    rw [hg]
    simp
  | member hunion hno =>
    refine Or.inl ⟨?_, rfl⟩
    obtain ⟨g, hg⟩ := Option.isSome_iff_exists.mp hunion
    rw [hg]
    simp

omit hsizing in
/-- The entries that are slots are those of the unions. -/
theorem perm_slots :
    ((entries.filterMap id).filter WireEntry.isSlot).Perm (slots.map Schema.slotEntry) := by
  have hnodup : ((entries.filterMap id).filter WireEntry.isSlot).Nodup :=
    (List.Nodup.of_map _ (hp.nodup_field hs)).filter _
  have hslots : (slots.map Schema.slotEntry).Nodup := by
    refine hp.nodup_slots.map fun slot slot' heq => ?_
    exact WireShape.union.inj (congrArg WireEntry.shape heq)
  refine (List.perm_ext_iff_of_nodup hnodup hslots).mpr fun e => ?_
  rw [List.mem_filter, List.mem_map]
  constructor
  · rintro ⟨he, hslot⟩
    unfold WireEntry.isSlot at hslot
    split at hslot
    · rename_i slot hshape
      obtain ⟨hmem, heq⟩ := hp.slot_of_shape he hshape
      exact ⟨slot, hmem, heq.symm⟩
    · cases hslot
  · rintro ⟨slot, hslot, rfl⟩
    refine ⟨List.mem_filterMap.mpr ⟨_, ?_, rfl⟩, rfl⟩
    exact List.mem_of_getElem? (hp.entry_of_slot hs hslot)

/-- The entries of the unions add up to the sizes of the unions. -/
theorem sum_slots (hunions : ∀ g ∈ s.unions, ∃ n, s.unionSizeWith? sizeOf g = some n) :
    (((entries.filterMap id).filter WireEntry.isSlot).map fun e => e.width sizeOf).sum =
      (s.unions.map fun g => (s.unionSizeWith? sizeOf g).getD 0).sum := by
  have hbytes : (s.unions.map fun g => (s.unionSizeWith? sizeOf g).getD 0) =
      slots.map UnionSlot.bytes := by
    refine forall₂_map_eq ((List.forall₂_and_left _ _).mpr ⟨hunions, hp.unions⟩) ?_
    rintro g slot ⟨⟨n, hn⟩, hof⟩
    rw [hn, Option.getD_some, hof.bytes_eq hsizing hn]
  rw [((hp.perm_slots hs).map _).sum_nat, List.map_map, hbytes]
  rfl

/-- The entries of a struct of fixed size are fixed, and their widths add up to the size. -/
theorem widths_of_sizeWith? {n : Nat} (hn : s.sizeWith? sizeOf = some n) :
    (∀ e ∈ entries.filterMap id, e.IsFixed sizeOf) ∧
      ((entries.filterMap id).map fun e => e.width sizeOf).sum = n := by
  obtain ⟨total, htotal, hn⟩ := Option.bind_eq_some_iff.mp hn
  obtain ⟨hunions, htotal⟩ := sumSizes?_eq_some htotal
  obtain ⟨hfields, hn⟩ := sumSizes?_eq_some hn
  -- an entry of its own has no condition, and is as wide as its field is large
  have hown : List.Forall₂ (fun f e => e.IsFixed sizeOf ∧
      (Struct.memberSizeWith? sizeOf f).getD 0 = e.width sizeOf) s.separateFields
      ((entries.filterMap id).filter fun e => !e.isSlot) := by
    refine ((List.forall₂_and_left _ _).mpr ⟨hfields, hp.forall₂_separateFields hs⟩).imp ?_
    rintro f e ⟨⟨k, hk⟩, hguard, hshape⟩
    rw [hk]
    unfold Struct.memberSizeWith? at hk
    split at hk
    · cases hk
    · rename_i hcondition
      have hwidth := hshape.width?_of_sizeWith? hsizing hk
      have hnone : f.condition = none := by simpa using hcondition
      unfold WireEntry.IsFixed WireEntry.width
      rw [hwidth]
      exact ⟨⟨hguard.trans hnone, rfl⟩, rfl⟩
  constructor
  · intro e he
    cases hslot : e.isSlot with
    | false =>
      have hmem : e ∈ (entries.filterMap id).filter fun e => !e.isSlot :=
        List.mem_filter.mpr ⟨he, by simp [hslot]⟩
      obtain ⟨f, -, hfixed, -⟩ := forall₂_mem_right hown hmem
      exact hfixed
    | true =>
      have hmem := (hp.perm_slots hs).subset (List.mem_filter.mpr ⟨he, hslot⟩)
      obtain ⟨slot, -, rfl⟩ := List.mem_map.mp hmem
      exact ⟨rfl, rfl⟩
  · have hsplit := List.filter_append_perm WireEntry.isSlot (entries.filterMap id)
    rw [← (hsplit.map fun e => e.width sizeOf).sum_nat, List.map_append, List.sum_append,
      hp.sum_slots hsizing hs hunions, hn, htotal, Nat.zero_add]
    congr 2
    exact (forall₂_map_eq hown fun _ _ h => h.2).symm

end Schema.Planned

end Widths

end WireLayout
