import WireLayout.Proofs.Fuel
import WireLayout.Proofs.Layout

/-!
# Complete records

Initial values stand in for members that a record leaves out. A record is complete if it leaves out
none that may be asked for: then its size does not depend on initial values, and two records of a
struct that agree on what the size of a field depends on give that field the same size.
-/

namespace WireLayout

/-! ## Records within records -/

/-- Whether the first record is the second one or lies in it, however deep. -/
inductive Record.Within : Record → Record → Prop
  /-- The record itself. -/
  | refl (r : Record) : Within r r
  /-- In a nested record. -/
  | field {x r r' : Record} {name : String} : r.get? name = some r'.toValue → Within x r' →
      Within x r
  /-- In an element of a list. -/
  | element {x r r' : Record} {name : String} {items : List Value} :
      r.get? name = some (.list items) → r'.toValue ∈ items → Within x r' → Within x r

theorem Record.Within.trans {x y z : Record} (h : x.Within y) (h' : y.Within z) : x.Within z := by
  induction h' with
  | refl => exact h
  | field hget _ ih => exact .field hget ih
  | element hget hmem _ ih => exact .element hget hmem ih

theorem Record.within_of_get? {r r' : Record} {name : String} (h : r.get? name = some r'.toValue) :
    r'.Within r := .field h (.refl r')

theorem Record.within_of_mem {r r' : Record} {name : String} {items : List Value}
    (h : r.get? name = some (.list items)) (hmem : r'.toValue ∈ items) : r'.Within r :=
  .element h hmem (.refl r')

/-- The records that a record holds or has in its lists. -/
def Record.parts (r : Record) : List Record :=
  r.fields.flatMap fun p =>
    match p.2 with
    | .record typeName fields => [{ typeName, fields }]
    | .list items => items.filterMap Value.record?
    | _ => []

/-- A record and the records in it, down to a depth. -/
def Record.records : Nat → Record → List Record
  | 0, _ => []
  | depth + 1, r => r :: r.parts.flatMap (records depth)

/-- All records that lie within a record are among these. -/
theorem Record.mem_records_of_within {x r : Record} (h : x.Within r) {n : Nat} (hn : r.depth ≤ n) :
    x ∈ r.records n := by
  have hsucc : ∀ (r : Record) (n : Nat), r.depth ≤ n → ∃ k, n = k + 1 := by
    intro r n hn
    rw [r.depth_eq] at hn
    exact Nat.exists_eq_succ_of_ne_zero (by omega)
  induction h generalizing n with
  | refl =>
    obtain ⟨k, rfl⟩ := hsucc x n hn
    exact List.mem_cons_self
  | @field r r' name hget _ ih =>
    obtain ⟨k, rfl⟩ := hsucc r n hn
    have hlt : r'.depth < r.depth := Record.depth_lt_of_get? hget
    have hpart : r' ∈ r.parts :=
      List.mem_flatMap.mpr ⟨_, Record.mem_of_get? hget, List.mem_singleton_self _⟩
    exact List.mem_cons_of_mem _ (List.mem_flatMap.mpr ⟨r', hpart, ih (by omega)⟩)
  | @element r r' name items hget hmem _ ih =>
    obtain ⟨k, rfl⟩ := hsucc r n hn
    have hlt : r'.depth < r.depth := Record.depth_lt_of_mem hget hmem
    have hpart : r' ∈ r.parts := List.mem_flatMap.mpr ⟨_, Record.mem_of_get? hget,
      List.mem_filterMap.mpr ⟨_, hmem, Value.record?_toValue r'⟩⟩
    exact List.mem_cons_of_mem _ (List.mem_flatMap.mpr ⟨r', hpart, ih (by omega)⟩)

/-! ## Integers of tested fields -/

namespace Frame

/-- Whether two frames of a struct give the same integer to a plain field: it counts the elements of
arrays, and their records are the same, or their records hold the same value for it. -/
def AgreeOn (frame frame' : Frame) (name : String) : Prop :=
  (frame.struct.isCount name = true ∧ frame'.record = frame.record) ∨
    frame.struct.isCount name = false ∧
      ∃ v, frame.record.get? name = some v ∧ frame'.record.get? name = some v

variable {frame frame' : Frame} {types : TypeTable}

theorem liveLength_congr {arrays : List String}
    (h : ∀ a ∈ arrays, frame'.record.get? a = frame.record.get? a) :
    frame'.liveLength arrays = frame.liveLength arrays := by
  unfold liveLength
  generalize (none : Option Nat) = shared
  induction arrays generalizing shared with
  | nil => rfl
  | cons a rest ih =>
    have hrest := ih fun b hb => h b (List.mem_cons_of_mem _ hb)
    simp only [sharedLength, h a (by simp), hrest]

/-- The integer of a plain field that counts elements. -/
theorem intOf_of_isCount (hs : frame.struct.WellFormed types) {f : Field}
    (hf : f ∈ frame.struct.fields) (ht : f.Testable types)
    (hcount : frame.struct.isCount f.name = true) (m : Measure) :
    frame.intOf m f.name =
      (frame.liveLength (frame.struct.arraysCountedBy f.name)).map Int.ofNat := by
  have hconst : f.constValue? = none := by unfold Field.constValue?; rw [ht.plain.1]
  unfold intOf
  rw [Struct.field?_of_mem hs.names hf, Option.bind_some, hconst]
  simp only [hcount, if_true]

/-- The integer of a plain field that the record holds. -/
theorem intOf_of_get? (hs : frame.struct.WellFormed types) {f : Field}
    (hf : f ∈ frame.struct.fields) (ht : f.Testable types)
    (hcount : frame.struct.isCount f.name = false) {v : Value}
    (hv : frame.record.get? f.name = some v) (m : Measure) :
    frame.intOf m f.name = asInt f.name v := by
  have hconst : f.constValue? = none := by unfold Field.constValue?; rw [ht.plain.1]
  unfold intOf
  rw [Struct.field?_of_mem hs.names hf, Option.bind_some, hconst]
  simp only [hcount, Bool.false_eq_true, if_false, hv]

/-- The integer of a plain field that counts nothing is its value. -/
theorem intOf_of_value (hs : frame.struct.WellFormed types) {f : Field}
    (hf : f ∈ frame.struct.fields) (ht : f.Testable types)
    (hcount : frame.struct.isCount f.name = false) {n : Int}
    (hv : frame.value f.name = .ok (.int n)) (m : Measure) : frame.intOf m f.name = .ok n := by
  have hconst : f.constValue? = none := by unfold Field.constValue?; rw [ht.plain.1]
  unfold value at hv
  unfold intOf
  rw [Struct.field?_of_mem hs.names hf, Option.bind_some, hconst]
  simp only [hcount, Bool.false_eq_true, if_false]
  cases hget : frame.record.get? f.name with
  | some v =>
    rw [hget] at hv
    cases hv
    rfl
  | none =>
    rw [hget] at hv
    dsimp only at hv ⊢
    split at hv
    · cases hv
      rfl
    · cases hv

theorem intOf_congr (hstruct : frame'.struct = frame.struct) (hs : frame.struct.WellFormed types)
    {f : Field} (hf : f ∈ frame.struct.fields) (ht : f.Testable types)
    (h : frame.AgreeOn frame' f.name) (m m' : Measure) :
    frame'.intOf m' f.name = frame.intOf m f.name := by
  have hs' : frame'.struct.WellFormed types := hstruct ▸ hs
  have hf' : f ∈ frame'.struct.fields := hstruct ▸ hf
  rcases h with ⟨hcount, hrecord⟩ | ⟨hcount, v, hv, hv'⟩
  · have hlive : frame'.liveLength (frame.struct.arraysCountedBy f.name) =
        frame.liveLength (frame.struct.arraysCountedBy f.name) :=
      liveLength_congr fun a _ => by rw [hrecord]
    rw [intOf_of_isCount hs hf ht hcount,
      intOf_of_isCount hs' hf' ht (by rw [hstruct]; exact hcount), hstruct, hlive]
  · rw [intOf_of_get? hs hf ht hcount hv,
      intOf_of_get? hs' hf' ht (by rw [hstruct]; exact hcount) hv']

/-- The condition of a field holds in both frames or in neither. -/
theorem holds_congr (hstruct : frame'.struct = frame.struct) (hs : frame.struct.WellFormed types)
    {f : Field} (hf : f ∈ frame.struct.fields)
    (h : ∀ c, f.condition = some c → frame.AgreeOn frame' c.field) (m m' : Measure) :
    frame'.holds m' f.condition = frame.holds m f.condition := by
  unfold holds
  cases hc : f.condition with
  | none => rfl
  | some c =>
    obtain ⟨g, hg, hname, ht⟩ := hs.tested f hf c hc
    have hagree := h c hc
    rw [← hname] at hagree
    have hint := intOf_congr hstruct hs hg ht hagree m m'
    rw [hname] at hint
    simp only [hint]

end Frame

/-! ## Sizes that initial values do not change -/

/-- Whether a record holds the values of its struct's plain and inline fields that are present and
that no union holds, but for those that count elements. -/
def Codec.CompleteHere (c : Codec) (r : Record) : Prop :=
  ∀ s plan, c.lookup r.typeName = .ok (s, plan) → ∀ f ∈ s.fields, f.isStored = true →
    s.isCount f.name = false → s.unionOf? f.name = none → ∀ m initial,
      ({ struct := s, plan, record := r, initial } : Frame).holds m f.condition = .ok true →
        (r.get? f.name).isSome = true

/-- Whether this holds for a record and for all records in it. -/
def Codec.Complete (c : Codec) (r : Record) : Prop := ∀ x, x.Within r → c.CompleteHere x

theorem Codec.Complete.within {c : Codec} {r x : Record} (h : c.Complete r) (hx : x.Within r) :
    c.Complete x := fun _ hy => h _ (hy.trans hx)

namespace Frame

variable {frame frame' : Frame} {schema : Schema} {slots : List UnionSlot}
  {entries : List (Option WireEntry)}

/-- The size of a field of its own depends on its value and, in a region, on the length field. Initial
values only matter where the field is left out, or in the nested record. -/
theorem opSize_congr (hstruct : frame'.struct = frame.struct)
    (hs : frame.struct.WellFormed schema.types) {i : Nat} {f : Field}
    (hf : frame.struct.fields[i]? = some f) {shape : WireShape}
    (hshape : schema.Shaped frame.struct f shape)
    (hget : frame'.record.get? f.name = frame.record.get? f.name)
    (hlength : ∀ layout, f.sizedArray? = some layout → frame.AgreeOn frame' layout.lengthField)
    (hpresent : f.isStored = true → schema.types.form? f.typeName = none →
      (frame.record.get? f.name).isSome = true)
    {m : Measure} (hnested : ∀ r, frame.record.get? f.name = some r.toValue →
      ∀ initial initial', m f.typeName initial' r = m f.typeName initial r)
    {role : Role} {guard : Option Condition} :
    frame'.opSize m f.name (WireEntry.sizeOp { field := f.name, role, guard, shape }) =
      frame.opSize m f.name (WireEntry.sizeOp { field := f.name, role, guard, shape }) := by
  have hmissing : frame'.missing f.name = frame.missing f.name := by unfold missing; rw [hstruct]
  have hlist : frame'.list f.name = frame.list f.name := by unfold list; rw [hget, hmissing]
  cases hshape with
  | leaf _ _ => rfl
  | reserved _ _ => rfl
  | array _ _ => simp only [WireEntry.sizeOp, opSize, hlist]
  | fill _ _ => simp only [WireEntry.sizeOp, opSize, hlist]
  | nested hstored hform _ =>
    obtain ⟨v, hv⟩ := Option.isSome_iff_exists.mp (hpresent hstored hform)
    have hv' := hget.trans hv
    simp only [WireEntry.sizeOp, opSize, nested, hv, hv']
    cases hr : asRecord f.name v with
    | error e => rfl
    | ok r =>
      obtain rfl := asRecord_eq_ok.mp hr
      exact hnested r hv _ _
  | @arraySized layout group hd _ =>
    have hl : f.sizedArray? = some layout := by unfold Field.sizedArray?; rw [hd]
    obtain ⟨j, g, -, hg, hname, hplain, hnum⟩ :=
      hs.counted i f hf _ (Field.lengthName?_of_sizedArray? hl)
    have hagree := hlength layout hl
    rw [← hname] at hagree
    have hint := intOf_congr hstruct hs (List.mem_of_getElem? hg)
      ⟨hplain, TypeTable.intType_of_isNumber hnum⟩ hagree m m
    rw [hname] at hint
    simp only [WireEntry.sizeOp, opSize, hint]

/-- What the sizes of a struct's fields depend on is the same in two frames. -/
structure SameSizes (schema : Schema) (m : Measure) (frame frame' : Frame) (f : Field) : Prop where
  /-- The values of the field are the same. -/
  value : frame'.record.get? f.name = frame.record.get? f.name
  /-- So is the integer that its condition tests. -/
  tested : f.isConst = false → ∀ c, f.condition = some c → frame.AgreeOn frame' c.field
  /-- So is the length of a region. -/
  length : ∀ layout, f.sizedArray? = some layout → frame.AgreeOn frame' layout.lengthField
  /-- A nested struct is there if its condition holds. -/
  present : f.isStored = true → schema.types.form? f.typeName = none →
    frame.struct.unionOf? f.name = none → frame.holds m f.condition = .ok true →
      (frame.record.get? f.name).isSome = true
  /-- Its size does not depend on initial values. -/
  nested : ∀ r, frame.record.get? f.name = some r.toValue → ∀ initial initial',
    m f.typeName initial' r = m f.typeName initial r

/-- A step of the size plan has the same guard and size in both frames. -/
theorem SameSizes.step (hstruct : frame'.struct = frame.struct)
    (hs : frame.struct.WellFormed schema.types) {m : Measure} {i : Nat} {f : Field}
    (hf : frame.struct.fields[i]? = some f) (h : SameSizes schema m frame frame' f)
    {e : WireEntry} (he : schema.EntryOf frame.struct slots i f (some e)) :
    frame'.holds m (e.step e.sizeOp).guard = frame.holds m (e.step e.sizeOp).guard ∧
      (frame.holds m (e.step e.sizeOp).guard = .ok true →
        frame'.opSize m (e.step e.sizeOp).field (e.step e.sizeOp).op =
          frame.opSize m (e.step e.sizeOp).field (e.step e.sizeOp).op) := by
  cases he with
  | slot hslot hpos hname => exact ⟨rfl, fun _ => rfl⟩
  | own hconst hunion hshape =>
    refine ⟨holds_congr hstruct hs (List.mem_of_getElem? hf) (h.tested hconst) m m, fun hg => ?_⟩
    exact opSize_congr hstruct hs hf hshape h.value h.length
      (fun hstored hform => h.present hstored hform hunion hg) h.nested

/-- The sizes of all fields, added up. -/
theorem stepsSize_congr (frame frame' : Frame) (hstruct : frame'.struct = frame.struct)
    (hs : frame.struct.WellFormed schema.types) {m : Measure} {plan : Plan}
    (hp : schema.Planned frame.struct plan slots entries)
    (h : ∀ f ∈ frame.struct.fields, SameSizes schema m frame frame' f) (total : Nat) :
    frame'.stepsSize m total plan.size = frame.stepsSize m total plan.size := by
  have key : ∀ l : List WireEntry, (∀ e ∈ l, e ∈ entries.filterMap id) → ∀ total,
      frame'.stepsSize m total (l.map fun e => e.step e.sizeOp) =
        frame.stepsSize m total (l.map fun e => e.step e.sizeOp) := by
    intro l
    induction l with
    | nil => intro _ _; rfl
    | cons e l ih =>
      intro hl total
      obtain ⟨i, f, hf, hentry⟩ := hp.exists_of_mem (hl e (by simp))
      obtain ⟨hholds, hsize⟩ := (h f (List.mem_of_getElem? hf)).step hstruct hs hf hentry
      have hrest := ih fun x hx => hl x (List.mem_cons_of_mem _ hx)
      simp only [List.map_cons, stepsSize, hholds]
      cases hg : frame.holds m (e.step e.sizeOp).guard with
      | error err => rfl
      | ok b =>
        cases b with
        | false => simpa using hrest total
        | true => simp only [ok_bind, if_true, hsize hg, hrest]
  rw [hp.size]
  exact key _ (fun e he => he) total

/-- The size of one field. -/
theorem fieldSize_congr (frame frame' : Frame) (hstruct : frame'.struct = frame.struct)
    (hplan : frame'.plan = frame.plan) (hs : frame.struct.WellFormed schema.types) {m : Measure}
    (hp : schema.Planned frame.struct frame.plan slots entries) {target : String}
    (h : ∀ f ∈ frame.struct.fields, f.name = target → SameSizes schema m frame frame' f) :
    frame'.fieldSize schema m target = frame.fieldSize schema m target := by
  unfold fieldSize
  rw [hstruct, hplan]
  split
  · -- a member of a union
    unfold unionMemberSize
    rw [hstruct]
    cases hfield : frame.struct.field? target with
    | none => rfl
    | some f =>
      obtain ⟨hf, hname⟩ := Struct.mem_of_field? hfield
      rename_i hunion
      obtain ⟨g, hg⟩ := Option.isSome_iff_exists.mp hunion
      rw [← hname] at hg
      have hconst := ((Struct.unionOf?_eq_some_iff hs.names hf).mp hg).1
      have hsame := h f hf hname
      have hvalue := hname ▸ hsame.value
      have hholds := holds_congr hstruct hs hf (hsame.tested hconst) m m
      have hmissing : frame'.missing target = frame.missing target := by
        unfold missing; rw [hstruct]
      simp only [hvalue, hholds, hmissing]
  · rename_i hunion
    cases hfind : frame.plan.size.find? fun step => step.field == target with
    | none => rfl
    | some step =>
      have hmem := List.mem_of_find?_eq_some hfind
      have hname : step.field = target := by simpa using List.find?_some hfind
      rw [hp.size] at hmem
      obtain ⟨e, he, rfl⟩ := List.mem_map.mp hmem
      obtain ⟨i, f, hf, hentry⟩ := hp.exists_of_mem he
      have hfname : f.name = target := by
        cases hentry with
        | slot _ _ hn => exact hn.symm.trans hname
        | own _ _ _ => exact hname
      obtain ⟨hholds, hsize⟩ :=
        (h f (List.mem_of_getElem? hf) hfname).step hstruct hs hf hentry
      simp only [hholds]
      cases hg : frame.holds m (e.step e.sizeOp).guard with
      | error err => rfl
      | ok b =>
        cases b with
        | false => rfl
        | true => simp only [ok_bind, if_true, hsize hg]

end Frame

namespace Codec

variable {c : Codec}

/-- What a record that is complete knows about its plain fields. -/
theorem CompleteHere.isSome_of_testable {r : Record} (h : c.CompleteHere r) {s : Struct}
    {plan : Plan} (hl : c.lookup r.typeName = .ok (s, plan)) {types : TypeTable}
    (hs : s.WellFormed types) {f : Field} (hf : f ∈ s.fields) (ht : f.Testable types)
    (hcount : s.isCount f.name = false) : (r.get? f.name).isSome = true := by
  obtain ⟨hd, hc⟩ := ht.plain
  have hstored : f.isStored = true := by simp [Field.isStored, hd]
  refine h s plan hl f hf hstored hcount (Struct.unionOf?_of_unconditioned hs.names hf hc)
    (fun _ _ _ => .ok 0) [] ?_
  rw [hc]
  rfl

/-- The size of a complete record does not depend on initial values. -/
theorem Sound.sizeAt_congr (hc : c.Sound) {r : Record} (h : c.Complete r) (n : Nat) (name : String)
    (initial initial' : List Initializer) :
    c.sizeAt n name initial' r = c.sizeAt n name initial r := by
  induction n generalizing r name initial initial' with
  | zero => rfl
  | succ n ih =>
    unfold sizeAt Codec.frame
    cases hl : c.lookup name with
    | error e => rfl
    | ok q =>
      obtain ⟨s, plan⟩ := q
      simp only [ok_bind]
      by_cases hname : r.typeName = name
      · rw [if_pos hname, if_pos hname]
        simp only [ok_bind]
        subst hname
        obtain ⟨-, hmem, -, -, -, slots, entries, hp⟩ := hc.planned_of_lookup hl
        have hs := hc.linked.wellFormed s hmem
        have hhere := h r (.refl r)
        let frame : Frame :=
          { struct := s, plan, record := r, initial := initial ++ plan.initializers }
        let frame' : Frame :=
          { struct := s, plan, record := r, initial := initial' ++ plan.initializers }
        have hagree : ∀ f ∈ s.fields, f.Testable c.schema.types → frame.AgreeOn frame' f.name := by
          intro f hf ht
          cases hcount : s.isCount f.name with
          | true => exact Or.inl ⟨hcount, rfl⟩
          | false =>
            obtain ⟨v, hv⟩ :=
              Option.isSome_iff_exists.mp (hhere.isSome_of_testable hl hs hf ht hcount)
            exact Or.inr ⟨hcount, v, hv, hv⟩
        refine Frame.stepsSize_congr frame frame' rfl hs hp (fun f hf => ?_) 0
        constructor
        case value => rfl
        case tested =>
          intro _ cond hcond
          obtain ⟨g, hg, hgname, ht⟩ := hs.tested f hf cond hcond
          exact hgname ▸ hagree g hg ht
        case length =>
          intro layout hlayout
          obtain ⟨i, hi⟩ := List.mem_iff_getElem?.mp hf
          obtain ⟨j, g, -, hg, hgname, hplain, hnum⟩ :=
            hs.counted i f hi _ (Field.lengthName?_of_sizedArray? hlayout)
          exact hgname ▸ hagree g (List.mem_of_getElem? hg)
            ⟨hplain, TypeTable.intType_of_isNumber hnum⟩
        case present =>
          intro hstored hform hunion hholds
          refine hhere s plan hl f hf hstored ?_ hunion _ _ hholds
          -- a field that counts elements is an integer, and this one is a struct
          rw [Bool.eq_false_iff]
          intro hcount
          obtain ⟨t, ht⟩ := (hs.testable_of_isCount hf hcount).2
          rw [TypeTable.form?_of_intType? ht] at hform
          cases hform
        case nested =>
          intro r' hr' initial initial'
          exact ih (h.within (Record.within_of_get? hr')) f.typeName initial initial'
      · rw [if_neg hname, if_neg hname]

end Codec

end WireLayout
