import WireLayout.Proofs.Fuel
import WireLayout.Proofs.Layout
import WireLayout.Proofs.Writing

/-!
# Sizes are byte counts

The size plan and the encode plan of a struct have a step for each entry, and the two steps of an
entry agree: where the second gives bytes, the first gives their number. The one place where sizes are
not added up from parts is a region of elements, whose size is what its length field says. So the
length field may not serve another vector, and its value may not be an initial value.
-/

namespace WireLayout

/-- Whether every field that holds the byte length of a region holds no other length. -/
def Schema.LengthsOwned (schema : Schema) : Prop :=
  ∀ s ∈ schema.structs, ∀ f ∈ s.fields, f.sizedArray?.isSome = true →
    ∀ g ∈ s.fields, g.lengthName? = f.lengthName? → g = f

/-- Whether a path from a struct leads to a field that holds the byte length of a region. -/
def Schema.reachesLength (schema : Schema) (s : Struct) : List String → Bool
  | [] => false
  | [last] => !(s.regionsMeasuredBy last).isEmpty
  | hop :: next :: path =>
    ((s.field? hop).bind fun f => schema.struct? f.typeName).any fun t =>
      reachesLength schema t (next :: path)

/-- Whether no initial value is one of a field that holds the byte length of a region. -/
def Schema.SparesLengths (schema : Schema) (s : Struct) (initial : List Initializer) : Prop :=
  ∀ i ∈ initial, schema.reachesLength s i.path = false

/-- Whether this holds for the initial values of every plan. -/
def Codec.SparesLengths (c : Codec) : Prop :=
  ∀ s ∈ c.schema.structs, ∀ plan ∈ c.plans, plan.structName = s.name →
    c.schema.SparesLengths s plan.initializers

instance (schema : Schema) : Decidable schema.LengthsOwned :=
  inferInstanceAs (Decidable (∀ s ∈ schema.structs, ∀ f ∈ s.fields, f.sizedArray?.isSome = true →
    ∀ g ∈ s.fields, g.lengthName? = f.lengthName? → g = f))

instance (c : Codec) : Decidable c.SparesLengths :=
  inferInstanceAs (Decidable (∀ s ∈ c.schema.structs, ∀ plan ∈ c.plans, plan.structName = s.name →
    ∀ i ∈ plan.initializers, c.schema.reachesLength s i.path = false))

/-! ## Length fields -/

section Lengths

variable {schema : Schema} {s : Struct} {f : Field} {layout : SizedArray}

/-- A length field of a region counts nothing, and the region is the only one that it measures. -/
theorem Schema.LengthsOwned.regions (h : schema.LengthsOwned) (hs : s ∈ schema.structs)
    (hf : f ∈ s.fields) (hl : f.sizedArray? = some layout) :
    s.isCount layout.lengthField = false ∧
      (s.regionsMeasuredBy layout.lengthField).head? = some (f.name, layout.align) ∧
      (s.regionsMeasuredBy layout.lengthField).getLast? = some (f.name, layout.align) := by
  have howned : ∀ g ∈ s.fields, g.lengthName? = some layout.lengthField → g = f := by
    intro g hg hname
    refine h s hs f hf (by rw [hl]; rfl) g hg ?_
    rw [hname, Field.lengthName?_of_sizedArray? hl]
  have hall : ∀ p ∈ s.regionsMeasuredBy layout.lengthField, p = (f.name, layout.align) := by
    intro p hp
    obtain ⟨g, hg, layout', hl', hname, rfl⟩ := Struct.mem_regionsMeasuredBy.mp hp
    obtain rfl := howned g hg (hname ▸ Field.lengthName?_of_sizedArray? hl')
    rw [hl] at hl'
    rw [Option.some.inj hl']
  have hne : s.regionsMeasuredBy layout.lengthField ≠ [] :=
    List.ne_nil_of_mem (Struct.mem_regionsMeasuredBy.mpr ⟨f, hf, layout, hl, rfl, rfl⟩)
  refine ⟨?_, ?_, ?_⟩
  · rw [Bool.eq_false_iff]
    intro hcount
    obtain ⟨g, hg, hc⟩ := Struct.isCount_eq_true.mp hcount
    obtain rfl := howned g hg (Field.lengthName?_of_countedBy? hc)
    unfold Field.countedBy? at hc
    unfold Field.sizedArray? at hl
    split at hl
    · rename_i hd
      rw [hd] at hc
      cases hc
    · cases hl
  · rw [List.head?_eq_some_head hne, hall _ (List.head_mem hne)]
  · rw [List.getLast?_eq_some_getLast hne, hall _ (List.getLast_mem hne)]

/-- The initial values inside a field spare the length fields of its struct. -/
theorem Schema.SparesLengths.inside {initial : List Initializer} {t : Struct}
    (h : schema.SparesLengths s initial) (hf : s.field? f.name = some f)
    (ht : schema.struct? f.typeName = some t) :
    schema.SparesLengths t (initial.filterMap fun i => i.inside? f.name) := by
  intro i hi
  obtain ⟨j, hj, next, path, hpath, rfl⟩ := Initializer.mem_inside.mp hi
  have hreach := h j hj
  rw [hpath, reachesLength, hf, Option.bind_some, ht] at hreach
  simpa using hreach

/-- No initial value is one of a length field. -/
theorem Schema.SparesLengths.initial?_eq_none {frame : Frame} {name : String}
    (h : schema.SparesLengths frame.struct frame.initial)
    (hname : (frame.struct.regionsMeasuredBy name).head?.isSome = true) :
    frame.initial? name = none := by
  unfold Frame.initial?
  rw [Option.map_eq_none_iff, List.find?_eq_none]
  intro i hi hfor
  have hpath : i.path = [name] := by simpa [Initializer.isFor] using hfor
  have hreach := h i hi
  rw [hpath, reachesLength] at hreach
  cases hr : frame.struct.regionsMeasuredBy name with
  | nil => rw [hr] at hname; cases hname
  | cons p rest => rw [hr] at hreach; cases hreach

end Lengths

/-! ## Parts -/

/-- Whether the bytes that `encodeAt` gives for a record are as many as `sizeAt` says. -/
def Codec.Measures (c : Codec) (n : Nat) (name : String) (initial : List Initializer) (r : Record) :
    Prop :=
  ∀ bytes, c.encodeAt n name initial r = .ok bytes → bytes.length < sizeLimit →
    c.sizeAt n name initial r = .ok bytes.length

section Parts

variable {c : Codec} {n : Nat} {items : List Value} {field : String}

/-- The elements of an array are measured one by one. -/
theorem Codec.elementsSize_of_joinM
    (h : ∀ v ∈ items, ∀ r, v = r.toValue → ∀ ty, c.Measures n ty [] r) {element : Element}
    {bytes : Bytes} {total : Nat}
    (hb : joinM (fun v => element.write (c.encodeAt n) field v) items = .ok bytes)
    (hlt : total + bytes.length < sizeLimit) :
    elementsSize (c.sizeAt n) element field total items = .ok (total + bytes.length) := by
  induction items generalizing bytes total with
  | nil =>
    cases hb
    rfl
  | cons v rest ih =>
    simp only [joinM, bind_eq_ok] at hb
    obtain ⟨first, hfirst, more, hmore, hb⟩ := hb
    cases hb
    rw [List.length_append] at hlt
    have hsize : element.size (c.sizeAt n) field v = .ok first.length := by
      cases element with
      | leaf l => exact congrArg Except.ok (Leaf.length_of_write hfirst).symm
      | struct ty =>
        obtain ⟨r, hr, hfirst⟩ := bind_eq_ok'.mp hfirst
        exact bind_eq_ok'.mpr ⟨r, hr, h v (by simp) r (asRecord_eq_ok.mp hr) ty first hfirst
          (by omega)⟩
    simp only [elementsSize, bind_eq_ok]
    refine ⟨_, hsize, _, grow_eq_ok.mpr ⟨rfl, by omega⟩, ?_⟩
    rw [ih (fun w hw => h w (List.mem_cons_of_mem _ hw)) hmore (by omega), List.length_append,
      Nat.add_assoc]

/-- The elements of a region are measured one by one, with the zeros up to the alignment. -/
theorem Codec.regionLength_of_regionBytes
    (h : ∀ v ∈ items, ∀ r, v = r.toValue → ∀ ty, c.Measures n ty [] r) {align : Option Nat}
    {bytes : Bytes} {offset : Nat}
    (hb : regionBytes (c.encodeAt n) field align offset items = .ok bytes)
    (hlt : offset + bytes.length < sizeLimit) :
    regionLength (c.sizeAt n) field align offset items = .ok (offset + bytes.length) := by
  induction items generalizing bytes offset with
  | nil =>
    cases hb
    rfl
  | cons v rest ih =>
    simp only [regionBytes, bind_eq_ok] at hb
    obtain ⟨r, hr, first, hfirst, more, hmore, hb⟩ := hb
    cases hb
    simp only [List.length_append, Bytes.length_zeros] at hlt hmore
    have hsize := h v (by simp) r (asRecord_eq_ok.mp hr) r.typeName first hfirst (by omega)
    have htotal : offset + (first.length + padding (offset + first.length) align) =
        offset + first.length + padding (offset + first.length) align := by omega
    rw [htotal] at hmore
    simp only [regionLength, bind_eq_ok]
    refine ⟨r, hr, _, hsize, _, grow_eq_ok.mpr ⟨rfl, by omega⟩, _,
      grow_eq_ok.mpr ⟨rfl, by omega⟩, ?_⟩
    rw [ih (fun w hw => h w (List.mem_cons_of_mem _ hw)) hmore (by omega)]
    simp only [List.length_append, Bytes.length_zeros]
    congr 1
    omega

end Parts

/-! ## Steps -/

/-- What is known of the frame in which a struct's record is measured and written. -/
structure Codec.Framed (c : Codec) (n : Nat) (frame : Frame) : Prop where
  /-- The struct is one of the schema's. -/
  declared : frame.struct ∈ c.schema.structs
  /-- The initial values in force spare the length fields. -/
  spares : c.schema.SparesLengths frame.struct frame.initial
  /-- What the codec measures in the record is measured within the depth. -/
  agrees : frame.Agrees c.measure (c.sizeAt n)
  /-- The elements of the record's lists are measured as they are written. -/
  elements : ∀ name items, frame.record.get? name = some (.list items) →
    ∀ v ∈ items, ∀ r, v = r.toValue → ∀ ty, c.Measures n ty [] r
  /-- So are the records nested in it. -/
  nested : ∀ f ∈ frame.struct.fields, ∀ r, frame.nested f.name f.typeName = .ok r →
    c.Measures n f.typeName (frame.initialInside f.name) r

section Steps

variable {c : Codec} {n : Nat} {frame : Frame} {slots : List UnionSlot}
  {entries : List (Option WireEntry)}

/-- The length field of a region says how long the region is, once both are written. -/
theorem Codec.Framed.byteLength (hc : c.Sound) (howned : c.schema.LengthsOwned)
    (h : c.Framed n frame) (hp : c.schema.Planned frame.struct frame.plan slots entries)
    (hwritten : ∀ e ∈ entries.filterMap id, ∃ bytes, frame.stepBytes c.schema c.measure
      (c.encodeAt n) (e.step (e.encodeOp frame.struct)) = .ok bytes)
    {f : Field} (hf : f ∈ frame.struct.fields) {layout : SizedArray}
    (hl : f.sizedArray? = some layout) {bytes : Bytes}
    (hb : frame.opBytes c.schema c.measure (c.encodeAt n) f.name
      (.arraySized layout.lengthField layout.align) = .ok bytes)
    (hlt : bytes.length < sizeLimit) :
    frame.intOf (c.sizeAt n) layout.lengthField = .ok bytes.length := by
  have hwf := hc.linked.wellFormed _ h.declared
  obtain ⟨hcount, hhead, hlast⟩ := howned.regions h.declared hf hl
  obtain ⟨i, hi⟩ := List.mem_iff_getElem?.mp hf
  obtain ⟨j, g, -, hg, hname, hplain, hnum⟩ :=
    hwf.counted i f hi _ (Field.lengthName?_of_sizedArray? hl)
  have hgmem := List.mem_of_getElem? hg
  obtain ⟨leaf, t, -, hentry⟩ :=
    hp.entry_of_testable hwf hg ⟨hplain, TypeTable.intType_of_isNumber hnum⟩
  obtain ⟨lengthBytes, hlength⟩ := hwritten _
    (List.mem_filterMap.mpr ⟨_, List.mem_of_getElem? hentry, rfl⟩)
  have hfield : frame.struct.field? layout.lengthField = some g :=
    hname ▸ Struct.field?_of_mem hwf.names hgmem
  have hconst : g.constValue? = none := by
    simp only [Field.isPlain, Bool.and_eq_true, beq_iff_eq] at hplain
    simp [Field.constValue?, hplain.1]
  obtain ⟨items, hitems, hregion, hsaid⟩ := Frame.regionBytes_of_arraySized hb
  -- the step of the length field was done: it has no condition
  simp only [Frame.stepBytes, WireEntry.step, WireEntry.encodeOp, hname, hcount, hlast,
    Frame.holds, ok_bind, if_true, Bool.false_eq_true, if_false, Frame.opBytes, bind_eq_ok]
    at hlength
  obtain ⟨declared, hdeclared, -⟩ := hlength
  unfold Frame.byteLength at hdeclared
  unfold Frame.intOf
  rw [hfield, Option.bind_some, hconst]
  simp only [hcount, Bool.false_eq_true, if_false]
  cases hget : frame.record.get? layout.lengthField with
  | some v =>
    simp only [hget] at hdeclared
    obtain rfl := asInt_eq_ok.mp hdeclared
    exact asInt_eq_ok.mpr (by rw [hsaid _ hget])
  | none =>
    simp only [h.spares.initial?_eq_none (by rw [hhead]; rfl), hhead, bind_eq_ok, map_eq_ok]
    refine ⟨items, hitems, _, ?_, rfl⟩
    have hreg := regionLength_of_regionBytes (h.elements _ items (Frame.list_eq_ok.mp hitems))
      hregion (by omega)
    rw [hreg, Nat.zero_add]

/-- The size step of an entry gives the number of bytes that its encode step gives. -/
theorem Codec.Framed.opSize (hc : c.Sound) (howned : c.schema.LengthsOwned) (h : c.Framed n frame)
    (hp : c.schema.Planned frame.struct frame.plan slots entries)
    (hwritten : ∀ e ∈ entries.filterMap id, ∃ bytes, frame.stepBytes c.schema c.measure
      (c.encodeAt n) (e.step (e.encodeOp frame.struct)) = .ok bytes)
    {e : WireEntry} (he : e ∈ entries.filterMap id) {bytes : Bytes}
    (hb : frame.opBytes c.schema c.measure (c.encodeAt n) e.field (e.encodeOp frame.struct) =
      .ok bytes)
    (hlt : bytes.length < sizeLimit) :
    frame.opSize (c.sizeAt n) e.field e.sizeOp = .ok bytes.length := by
  obtain ⟨i, f, hf, hentry⟩ := hp.exists_of_mem he
  cases hentry with
  | slot hslot hpos hname =>
    exact congrArg Except.ok (Frame.length_of_union hb).symm
  | own hconst hunion hshape =>
    have hfmem := List.mem_of_getElem? hf
    cases hshape with
    | leaf hstored hform =>
      exact congrArg Except.ok (Frame.length_of_leaf hb).symm
    | reserved hd hform =>
      obtain ⟨k, -, hb⟩ := bind_eq_ok.mp hb
      exact congrArg Except.ok (Leaf.length_of_write hb).symm
    | nested hstored hform hstruct =>
      obtain ⟨r, hr, hb⟩ := bind_eq_ok.mp hb
      exact bind_eq_ok.mpr ⟨r, hr, h.nested f hfmem r hr bytes hb hlt⟩
    | @array element count hd helem =>
      obtain ⟨items, hitems, hjoin⟩ := Frame.joinM_of_array hb
      have hsize : elementsSize (c.sizeAt n) element f.name 0 items = .ok (0 + bytes.length) :=
        elementsSize_of_joinM (h.elements _ items (Frame.list_eq_ok.mp hitems)) hjoin (by omega)
      rw [Nat.zero_add] at hsize
      exact bind_eq_ok.mpr ⟨items, hitems, hsize⟩
    | @fill element hd helem =>
      obtain ⟨items, hitems, hb⟩ := bind_eq_ok.mp hb
      have hsize : elementsSize (c.sizeAt n) element f.name 0 items = .ok (0 + bytes.length) :=
        elementsSize_of_joinM (h.elements _ items (Frame.list_eq_ok.mp hitems)) hb (by omega)
      rw [Nat.zero_add] at hsize
      exact bind_eq_ok.mpr ⟨items, hitems, hsize⟩
    | @arraySized layout group hd hgroup =>
      have hl : f.sizedArray? = some layout := by unfold Field.sizedArray?; rw [hd]
      have hint := h.byteLength hc howned hp hwritten hfmem hl hb hlt
      exact bind_eq_ok.mpr ⟨_, hint, toLength_eq_ok.mpr ⟨rfl, hlt⟩⟩

/-- The sizes of the steps add up to the number of bytes that are written. -/
theorem Codec.Framed.stepsSize (hc : c.Sound) (howned : c.schema.LengthsOwned)
    (h : c.Framed n frame) (hp : c.schema.Planned frame.struct frame.plan slots entries)
    {bytes : Bytes}
    (hb : joinM (frame.stepBytes c.schema c.measure (c.encodeAt n)) frame.plan.encode = .ok bytes)
    (hlt : bytes.length < sizeLimit) :
    frame.stepsSize (c.sizeAt n) 0 frame.plan.size = .ok bytes.length := by
  rw [hp.encode] at hb
  rw [hp.size]
  have hwritten : ∀ e ∈ entries.filterMap id, ∃ bytes, frame.stepBytes c.schema c.measure
      (c.encodeAt n) (e.step (e.encodeOp frame.struct)) = .ok bytes := by
    intro e he
    exact exists_of_joinM hb (List.mem_map.mpr ⟨e, he, rfl⟩)
  have key : ∀ (l : List WireEntry), (∀ e ∈ l, e ∈ entries.filterMap id) → ∀ total bytes,
      joinM (frame.stepBytes c.schema c.measure (c.encodeAt n))
        (l.map fun e => e.step (e.encodeOp frame.struct)) = .ok bytes →
      total + bytes.length < sizeLimit →
      frame.stepsSize (c.sizeAt n) total (l.map fun e => e.step e.sizeOp) =
        .ok (total + bytes.length) := by
    intro l
    induction l with
    | nil =>
      intro _ total bytes hb _
      cases hb
      rfl
    | cons e l ih =>
      intro hl total bytes hb hlt
      simp only [List.map_cons, joinM, bind_eq_ok] at hb
      obtain ⟨first, hfirst, more, hmore, hb⟩ := hb
      cases hb
      rw [List.length_append] at hlt
      have hrest := ih fun x hx => hl x (List.mem_cons_of_mem _ hx)
      simp only [Frame.stepBytes, bind_eq_ok] at hfirst
      obtain ⟨b, hholds, hfirst⟩ := hfirst
      simp only [List.map_cons, Frame.stepsSize, bind_eq_ok, List.length_append]
      refine ⟨b, Frame.holds_below h.agrees _ b hholds, ?_⟩
      cases b with
      | false =>
        cases hfirst
        rw [List.length_nil, Nat.zero_add] at hlt ⊢
        exact hrest total more hmore hlt
      | true =>
        have hsize := h.opSize hc howned hp hwritten (hl e (by simp)) hfirst (by omega)
        simp only [if_true, bind_eq_ok]
        refine ⟨_, hsize, _, grow_eq_ok.mpr ⟨rfl, by omega⟩, ?_⟩
        rw [hrest _ more hmore (by omega), Nat.add_assoc]
  have := key _ (fun e he => he) 0 bytes hb (by omega)
  rwa [Nat.zero_add] at this

end Steps

/-! ## Records -/

namespace Codec

variable {c : Codec}

/-- Whether records are measured as they are written, where structs nest at most `n` deep. The initial
values that are in force may not be those of length fields. A record that initial values bring in is
empty, so nothing in it is measured. -/
def MeasuresWithin (c : Codec) (n : Nat) : Prop :=
  ∀ name initial (r : Record),
    (∀ s, c.schema.struct? name = some s → c.schema.SparesLengths s initial) →
    (c.depthOf r ≤ n ∨ r.fields = []) → c.Measures n name initial r

/-- The initial values in force in a struct spare the length fields, if those of its surroundings
do. -/
theorem Sound.spares_of_lookup (hc : c.Sound) (hspares : c.SparesLengths) {name : String} {s : Struct}
    {plan : Plan} (hl : c.lookup name = .ok (s, plan)) {initial : List Initializer}
    (hinitial : ∀ s, c.schema.struct? name = some s → c.schema.SparesLengths s initial) :
    c.schema.SparesLengths s (initial ++ plan.initializers) := by
  obtain ⟨hstruct, hmem, hname, hplan, hpname, -⟩ := hc.planned_of_lookup hl
  intro i hi
  rcases List.mem_append.mp hi with hi | hi
  · exact hinitial s hstruct i hi
  · exact hspares s hmem plan hplan (hpname.trans hname.symm) i hi

/-- What is known of the frame of a record, if the records in it are measured as they are written. -/
theorem Sound.framed_of_frame (hc : c.Sound) (hspares : c.SparesLengths) {n : Nat}
    (hmeasures : c.MeasuresWithin n) {name : String} {initial : List Initializer} {r : Record}
    (hinitial : ∀ s, c.schema.struct? name = some s → c.schema.SparesLengths s initial)
    (hdepth : c.depthOf r ≤ n + 1 ∨ r.fields = []) {frame : Frame}
    (hframe : c.frame name initial r = .ok frame) : c.Framed n frame := by
  obtain ⟨s, plan, hlookup, -, rfl⟩ := frame_eq_ok.mp hframe
  obtain ⟨-, hmem, -⟩ := hc.planned_of_lookup hlookup
  have hget : r.fields = [] → ∀ field, r.get? field = none := fun h field => by
    unfold Record.get?; rw [h]; rfl
  -- a part of the record nests less deep
  have hpart : ∀ r' : Record, r'.depth < r.depth → ¬ r.fields = [] → c.depthOf r' ≤ n := by
    intro r' hlt hne
    have := hdepth.resolve_right hne
    unfold depthOf at this ⊢
    omega
  have helement : ∀ field items, r.get? field = some (.list items) → ∀ v ∈ items, ∀ r',
      v = r'.toValue → c.depthOf r' ≤ n := by
    rintro field items hitems v hv r' rfl
    refine hpart r' (Record.depth_lt_of_mem hitems hv) fun hnil => ?_
    rw [hget hnil] at hitems
    cases hitems
  have hall := hc.spares_of_lookup hspares hlookup hinitial
  constructor
  case declared => exact hmem
  case spares => exact hall
  case agrees =>
    intro field items hitems v hv r' hr' ty
    exact c.sizeAt_below (helement field items hitems v hv r' hr') ty [] r'
  case elements =>
    intro field items hitems v hv r' hr' ty
    exact hmeasures ty [] r' (fun _ _ i hi => by cases hi)
      (Or.inl (helement field items hitems v hv r' hr'))
  case nested =>
    intro f hf r' hr'
    refine hmeasures f.typeName _ r' (fun t ht => ?_) ?_
    · exact hall.inside (Struct.field?_of_mem (hc.linked.wellFormed s hmem).names hf) ht
    · unfold Frame.nested at hr'
      split at hr'
      · rename_i v hv
        obtain rfl := asRecord_eq_ok.mp hr'
        refine Or.inl (hpart r' (Record.depth_lt_of_get? hv) fun hnil => ?_)
        rw [hget hnil] at hv
        cases hv
      · split at hr'
        · cases hr'
        · cases hr'
          exact Or.inr rfl

/-- A record's bytes are as many as its size says. -/
theorem measures (hc : c.Sound) (howned : c.schema.LengthsOwned) (hspares : c.SparesLengths)
    (n : Nat) : c.MeasuresWithin n := by
  induction n with
  | zero => intro name initial r _ _ bytes hb _; cases hb
  | succ n ih =>
    intro name initial r hinitial hdepth bytes hb hlt
    simp only [encodeAt, bind_eq_ok] at hb
    obtain ⟨frame, hframe, hb⟩ := hb
    simp only [sizeAt, bind_eq_ok]
    refine ⟨frame, hframe, ?_⟩
    have hframed := hc.framed_of_frame hspares ih hinitial hdepth hframe
    obtain ⟨s, plan, hlookup, -, rfl⟩ := frame_eq_ok.mp hframe
    obtain ⟨-, -, -, -, -, slots, entries, hplanned⟩ := hc.planned_of_lookup hlookup
    exact hframed.stepsSize hc howned hplanned hb hlt

end Codec

/-- The size of a record is the number of bytes that it is written in, if that is a length. The
length field of a region of elements may neither be the length of another vector nor take an initial
value. -/
theorem size_of_encode {options : Options} {decls : List Declaration} {c : Codec}
    (hc : compile options decls = .ok c) (howned : c.schema.LengthsOwned)
    (hspares : c.SparesLengths) {r : Record} {bytes : Bytes} (hb : c.encode r = .ok bytes)
    (hlt : bytes.length < sizeLimit) : c.size r = .ok bytes.length :=
  Codec.measures (sound_of_compile hc) howned hspares _ r.typeName [] r
    (fun _ _ i hi => by cases hi) (Or.inl (Nat.le_refl _)) bytes hb hlt

/-- The batch takes 32 bytes. -/
theorem size_of_encode_batch :
    compile {} sampleDeclarations = .ok sampleCodec ∧ sampleCodec.schema.LengthsOwned ∧
      sampleCodec.SparesLengths ∧ sampleCodec.encode sampleRecord = .ok sampleBytes ∧
      sampleBytes.length < sizeLimit ∧ sampleCodec.size sampleRecord = .ok 32 := by
  have howned : sampleCodec.schema.LengthsOwned := by decide +kernel
  have hspares : sampleCodec.SparesLengths := by decide +kernel
  have hb : sampleCodec.encode sampleRecord = .ok sampleBytes :=
    eq_ok_of_toOption (by decide +kernel)
  have hlt : sampleBytes.length < sizeLimit := by decide
  exact ⟨compile_sample, howned, hspares, hb, hlt,
    size_of_encode compile_sample howned hspares hb hlt⟩

end WireLayout
