import Mathlib.Logic.Function.Iterate
import WireLayout.Proofs.MeasureDepth
import WireLayout.Proofs.TakenBytes

/-!
# The depth that reading needs

A struct enters another where a field has values of it that no length on the wire stands for. If no
struct enters itself, or none does before a byte was taken, reading a buffer ends, and it nests at most
as many structs as there are structs for each of its bytes, and once more for none.

The measure that falls with every struct that is read is a pair: the number of bytes ahead, then a rank
of the struct. A struct that is entered where no byte is taken in front for sure has the same bytes
ahead, or fewer, and a lower rank. Any other struct in a message is read from fewer bytes. Before the
elements of a counted array or of a region, and the headers of such elements, their length was read. And
a union's member is read from its slot, after the field that the union tests, which lies outside of it.
-/

namespace WireLayout

/-! ## Structs that enter others -/

/-- Whether a field has values of its type that no length on the wire stands for: one, a number that
the schema fixes and that is not zero, or as many as there are bytes. -/
def Field.isUncounted (f : Field) : Bool :=
  match f.disposition with
  | .plain | .inline | .arrayFill => true
  | .array (.literal count) => 0 < count
  | _ => false

theorem Field.isUncounted_of_isStored {f : Field} (h : f.isStored = true) :
    f.isUncounted = true := by
  unfold Field.isUncounted
  rcases Field.disposition_of_isStored h with hd | hd <;> rw [hd]

namespace Schema

variable {schema : Schema}

/-- Whether a field of the first struct has values of the second one that no length on the wire
stands for. -/
def Enters (schema : Schema) (owner name : String) : Prop :=
  ∃ s, schema.struct? owner = some s ∧ schema.hasStruct name = true ∧
    ∃ f ∈ s.fields, f.typeName = name ∧ f.isUncounted = true

/-- Whether no struct enters itself, directly or through others. -/
def Acyclic (schema : Schema) : Prop := ∀ name, ¬ Relation.TransGen schema.Enters name name

/-- Structs of which each has a height that is greater than those of the structs that it enters enter
no cycle. -/
theorem acyclic_of_height (height : String → Nat)
    (h : ∀ s ∈ schema.structs, ∀ f ∈ s.fields, f.isUncounted = true →
      schema.hasStruct f.typeName = true → height f.typeName < height s.name) :
    schema.Acyclic := by
  refine not_transGen_of_height height ?_
  rintro a b ⟨s, hs, hb, f, hf, rfl, hun⟩
  obtain ⟨hmem, rfl⟩ := mem_of_struct? hs
  exact h s hmem f hf hun hb

open Classical in
/-- The structs that a struct enters, directly or through others. -/
noncomputable def entered (schema : Schema) (name : String) : Finset String :=
  (schema.structs.map (·.name)).toFinset.filter fun other =>
    Relation.TransGen schema.Enters name other

/-- The number of these structs. -/
noncomputable def rank (schema : Schema) (name : String) : Nat := (schema.entered name).card

theorem Enters.rank_lt (hacyclic : schema.Acyclic) {owner name : String}
    (h : schema.Enters owner name) : schema.rank name < schema.rank owner := by
  obtain ⟨-, -, hname, -⟩ := id h
  exact card_leadsTo_lt (hacyclic name) (mem_names_of_hasStruct hname) h

theorem Acyclic.rank_lt_length (hacyclic : schema.Acyclic) (hpos : 0 < schema.structs.length)
    (name : String) : schema.rank name < schema.structs.length := by
  refine card_leadsTo_lt_length ?_ (hacyclic name) hpos
  rintro owner name ⟨s, hs, -⟩
  exact Option.isSome_iff_exists.mpr ⟨s, hs⟩

end Schema

/-! ## Structs that are entered first -/

namespace Schema

/-- Whether a struct enters another with a field in front of which no byte is taken for sure. -/
def EntersFirst (schema : Schema) (owner name : String) : Prop :=
  ∃ s, schema.struct? owner = some s ∧ schema.hasStruct name = true ∧
    ∃ (i : Nat) (f : Field), s.fields[i]? = some f ∧ f.typeName = name ∧ f.isUncounted = true ∧
      ∀ j < i, ∀ g, s.fields[j]? = some g → ¬ schema.TakesByte s g

theorem EntersFirst.enters {schema : Schema} {owner name : String}
    (h : schema.EntersFirst owner name) : schema.Enters owner name := by
  obtain ⟨s, hs, hname, i, f, hf, htype, hun, -⟩ := h
  exact ⟨s, hs, hname, f, List.mem_of_getElem? hf, htype, hun⟩

end Schema

theorem Codec.fieldRefers_of_isUncounted {c : Codec} {s : Struct} {f : Field}
    (h : f.isUncounted = true) : c.FieldRefers s f f.typeName := by
  unfold Field.isUncounted at h
  unfold FieldRefers
  cases hd : f.disposition with
  | const v => simp [hd] at h
  | arraySized layout => simp [hd] at h
  | _ => rfl

theorem Schema.Enters.refers {c : Codec} {owner name : String} (h : c.schema.Enters owner name) :
    c.Refers owner name := by
  obtain ⟨s, hs, -, f, hf, rfl, hun⟩ := h
  exact ⟨s, hs, f, hf, Codec.fieldRefers_of_isUncounted hun⟩

/-- Whether structs that a message leads to have ranks, below their number, of which each is greater
than those of the structs that its struct enters first. -/
structure Codec.Ranked (c : Codec) (root : String → Prop) (rank : String → Nat) : Prop where
  closed : ∀ owner name, root owner → c.Refers owner name → root name
  falls : ∀ owner name, root owner → c.schema.EntersFirst owner name → rank name < rank owner
  below : ∀ owner, root owner → 0 < c.schema.structs.length → rank owner < c.schema.structs.length

theorem Schema.Acyclic.ranked {c : Codec} (h : c.schema.Acyclic) :
    c.Ranked (fun _ => True) c.schema.rank where
  closed _ _ _ _ := trivial
  falls _ _ _ hfirst := hfirst.enters.rank_lt h
  below owner _ hpos := h.rank_lt_length hpos owner

/-! ## Rounds of a loop -/

/-- Rounds of a loop that goes on to the end of its bytes, with the elements that they read. -/
inductive Rounds (read : Cursor → Except CodecError (Value × Cursor)) :
    Cursor → List Value → Cursor → Prop
  /-- None yet. -/
  | start (cursor : Cursor) : Rounds read cursor [] cursor
  /-- One that starts before the end and takes a byte, and those after it. -/
  | round {cursor next last : Cursor} {v : Value} {items : List Value} : cursor.rest ≠ [] →
      read cursor = .ok (v, next) → next.offset ≠ cursor.offset → Rounds read next items last →
      Rounds read cursor (v :: items) last

/-- Whether a loop has at most as many rounds as there are bytes ahead of it, and would do the same
if it were allowed more. -/
structure RoundsBounded (read : Cursor → Except CodecError (Value × Cursor)) : Prop where
  rounds : ∀ cursor items last, Rounds read cursor items last →
    items.length + last.remaining ≤ cursor.remaining
  limit : ∀ field rounds cursor, cursor.remaining ≤ rounds →
    readToEnd field read rounds cursor = readToEnd field read cursor.remaining cursor

section Loops

variable {read : Cursor → Except CodecError (Value × Cursor)}

theorem Rounds.length_le (hread : Forward read) {cursor last : Cursor} {items : List Value}
    (h : Rounds read cursor items last) : items.length + last.remaining ≤ cursor.remaining := by
  induction h with
  | start cursor => simp
  | round _ hv hmoved _ ih =>
    obtain ⟨used, hused⟩ := hread _ _ _ hv
    have hlt := hused.remaining_lt hmoved
    rw [List.length_cons]
    omega

theorem readToEnd_limit (hread : Forward read) (field : String) {limit limit' : Nat}
    {cursor : Cursor} (h : cursor.remaining ≤ limit) (h' : cursor.remaining ≤ limit') :
    readToEnd field read limit cursor = readToEnd field read limit' cursor := by
  induction limit generalizing limit' cursor with
  | zero =>
    have hnil : cursor.rest = [] := List.length_eq_zero_iff.mp (Nat.le_zero.mp h)
    rw [readToEnd_nil field hnil, readToEnd_nil field hnil]
  | succ limit ih =>
    by_cases hnil : cursor.rest = []
    · rw [readToEnd_nil field hnil, readToEnd_nil field hnil]
    · have hpos : 0 < cursor.remaining := List.length_pos_of_ne_nil hnil
      obtain ⟨more, rfl⟩ : ∃ more, limit' = more + 1 := ⟨limit' - 1, by omega⟩
      have hempty : ¬ cursor.rest.isEmpty = true := fun h => hnil (List.isEmpty_iff.mp h)
      cases hv : read cursor with
      | error e =>
        rw [readToEnd, readToEnd, if_neg hempty, if_neg hempty, hv]
        rfl
      | ok q =>
        obtain ⟨v, next⟩ := q
        by_cases hmoved : next.offset = cursor.offset
        · rw [readToEnd, readToEnd, if_neg hempty, if_neg hempty]
          simp only [hv, ok_bind, if_pos hmoved]
        · obtain ⟨used, hused⟩ := hread _ _ _ hv
          have hlt := hused.remaining_lt hmoved
          have hsame : readToEnd field read limit next = readToEnd field read more next :=
            ih (by omega) (by omega)
          rw [readToEnd_step field hnil hv hmoved, readToEnd_step field hnil hv hmoved, hsame]

theorem Forward.roundsBounded (hread : Forward read) : RoundsBounded read where
  rounds _ _ _ h := h.length_le hread
  limit field _ _ h := readToEnd_limit hread field h (Nat.le_refl _)

end Loops

/-! ## Reads that end -/

theorem Cursor.take_ends (cursor : Cursor) (len : Nat) : Ends (cursor.take len) := by
  unfold take
  split <;> simp

theorem Leaf.read_ends (leaf : Leaf) (cursor : Cursor) : Ends (leaf.read cursor) := by
  unfold read
  split
  · exact ((cursor.take_ends _).map _).map _
  · exact (cursor.take_ends _).map _

theorem Leaf.readInt_ends (leaf : Leaf) (field : String) (cursor : Cursor) :
    Ends (leaf.readInt field cursor) := by
  unfold readInt
  split
  · exact (cursor.take_ends _).map _
  · simp

theorem Progress.noted_ends (p : Progress) (owner name : String) : Ends (p.noted owner name) :=
  p.noted_failsOnly nofun

theorem Progress.slot_ends (p : Progress) (owner name : String) : Ends (p.slot owner name) :=
  p.slot_failsOnly nofun

theorem Progress.holds_ends (p : Progress) (owner : String) (guard : Option Condition) :
    Ends (p.holds owner guard) :=
  p.holds_failsOnly (fun _ => nofun) guard

section Reading

variable {d : Decoder} {free : String → Prop} {ahead : Nat}

theorem Element.read_ends {element : Element} {cursor : Cursor}
    (h : ∀ ty, element = .struct ty → Ends (d ty cursor)) : Ends (element.read d cursor) := by
  cases element with
  | leaf l => exact l.read_ends cursor
  | struct ty => exact (h ty rfl).map _

theorem readCounted_ends (hd : d.Steady free) {element : Element}
    (h : ∀ here : Cursor, here.remaining ≤ ahead → Ends (element.read d here)) (count : Nat)
    {cursor : Cursor} (hc : cursor.remaining ≤ ahead) :
    Ends (readCounted d element count cursor) := by
  induction count generalizing cursor with
  | zero => exact .ok _
  | succ count ih =>
    unfold readCounted
    refine .bind (h cursor hc) fun q hq => ?_
    obtain ⟨used, hused⟩ := Element.read_forward hd element cursor q.1 q.2 hq
    have hrest := hused.remaining
    exact .bind (ih (by omega)) fun _ _ => .ok _

theorem readToEnd_ends {read : Cursor → Except CodecError (Value × Cursor)} (hread : Forward read)
    (h : ∀ here : Cursor, here.remaining ≤ ahead → Ends (read here)) (field : String)
    (rounds : Nat) {cursor : Cursor} (hc : cursor.remaining ≤ ahead) :
    Ends (readToEnd field read rounds cursor) := by
  induction rounds generalizing cursor with
  | zero =>
    unfold readToEnd
    split <;> simp
  | succ rounds ih =>
    unfold readToEnd
    split
    · exact .ok _
    · refine .bind (h cursor hc) fun q hq => ?_
      obtain ⟨used, hused⟩ := hread cursor q.1 q.2 hq
      have hrest := hused.remaining
      dsimp only
      split
      · simp
      · exact .bind (ih (by omega)) fun _ _ => .ok _

namespace Codec

variable {c : Codec}

theorem headerInt_ends (c : Codec) (header : String) (r : Record) (field : String) :
    Ends (c.headerInt header r field) := by
  unfold headerInt
  split <;> simp

theorem headerKey_ends (c : Codec) (b : HeaderBinding) (r : Record) : Ends (c.headerKey b r) := by
  unfold headerKey
  refine .bind (c.headerInt_ends _ _ _) fun id _ => ?_
  split
  · exact .ok _
  · exact .bind (c.headerInt_ends _ _ _) fun v _ => .bind (toLength_ends _ _) fun _ _ => .ok _

theorem structOf_ends (c : Codec) (group : String) (key : Int × Option Nat) :
    Ends (c.structOf group key) := by
  unfold structOf
  split <;> simp

theorem readPolymorphic_ends {layout : SizedArray} {group : String}
    (hheader : ∀ here : Cursor, here.remaining ≤ ahead → Ends (d layout.binding.header here))
    (helements : ∀ version id name, c.dispatch.resolve? group version id = some name →
      ∀ here : Cursor, here.remaining ≤ ahead → Ends (d name here))
    {here : Cursor} (hc : here.remaining ≤ ahead) :
    Ends (c.readPolymorphic d layout group here) := by
  have hkey : Ends (c.peekHeader d layout.binding here.rest) :=
    .bind (hheader (Cursor.start here.rest) hc) fun q _ => c.headerKey_ends _ _
  refine .bind hkey fun key _ => .bind (c.structOf_ends _ _) fun name hname => ?_
  refine .bind (helements _ _ name (structOf_eq_ok.mp hname) here hc) fun q _ => ?_
  exact .bind ((q.2.take_ends _).map _) fun _ _ => .ok _

theorem readUnion_ends {raw : Bytes} {members : List UnionMember}
    (h : ∀ m ∈ members, Ends (m.element.read d (Cursor.start raw))) (owner : String)
    (p : Progress) : Ends (readUnion d owner raw p members) := by
  induction members with
  | nil => exact .ok _
  | cons m rest ih =>
    unfold readUnion
    refine .bind (p.noted_ends _ _) fun tested _ => ?_
    split
    · exact .bind (h m (by simp)) fun _ _ => .ok _
    · exact ih fun m' hm' => h m' (List.mem_cons_of_mem _ hm')

theorem countOf_ends (owner : String) (p : Progress) (count : Count) :
    Ends (countOf owner p count) := by
  cases count with
  | literal n => exact .ok _
  | field name => exact .bind (p.noted_ends _ _) fun _ _ => toLength_ends _ _

theorem checkReserved_ends (field : String) (expected found : Int) :
    Ends (checkReserved field expected found) := checkReserved_failsOnly nofun

end Codec

end Reading

/-! ## Steps that end -/

section Steps

variable {c : Codec} {d : Decoder} {free : String → Prop} {owner : String} {s : Struct}
  {plan : Plan} {p : Progress}

/-- A region is read to an end if its header is, and the structs that its group has, from no more bytes
than are ahead. -/
theorem Codec.readRegion_ends (hd : d.Steady free) {layout : SizedArray} {group field : String}
    (hpart : ∀ name, name = layout.binding.header ∨
      (∃ version id, c.dispatch.resolve? group version id = some name) →
        ∀ here : Cursor, here.remaining ≤ p.cursor.remaining → Ends (d name here)) :
    Ends (c.readOp d s plan field p (.arraySized layout group)) := by
  refine .bind (p.noted_ends _ _) fun declared _ => ?_
  refine .bind (toLength_ends _ _) fun len _ => .bind ((p.cursor.take_ends _).map _) fun q hq => ?_
  obtain ⟨⟨front, next⟩, htake, rfl⟩ := map_eq_ok.mp hq
  have hremaining := (Cursor.reads_of_take htake).1.remaining
  have hfront : (Cursor.start front).remaining = front.length := rfl
  refine .bind (readToEnd_ends (c.readPolymorphic_forward hd _ _) (fun here hhere => ?_) _ _
    (Nat.le_of_eq hfront)) fun _ _ => .ok _
  refine readPolymorphic_ends (hpart _ (Or.inl rfl)) (fun version id name hname => ?_) (by omega)
  exact hpart name (Or.inr ⟨version, id, hname⟩)

/-- A field of its own is read to an end if the structs are that it brings into the message from fewer
bytes, and the one that it enters from no more than are ahead. -/
theorem Codec.readOwn_ends (hd : d.Steady free) {ahead : Nat} {f : Field}
    (hlength : ∀ name, f.lengthName? = some name → p.cursor.remaining < ahead)
    (hfewer : ∀ name, c.FieldRefers s f name → ∀ here : Cursor, here.remaining < ahead →
      Ends (d name here))
    (henters : f.isUncounted = true → c.schema.hasStruct f.typeName = true →
      ∀ here : Cursor, here.remaining ≤ p.cursor.remaining → Ends (d f.typeName here))
    {shape : WireShape} (hshape : c.schema.Shaped s f shape) {role : Role}
    {guard : Option Condition} : Ends (c.readOp d s plan f.name p
      (WireEntry.decodeOp s { field := f.name, role, guard, shape })) := by
  -- elements that no length on the wire stands for
  have huncounted : f.isUncounted = true → ∀ element, c.schema.ElementOf f.typeName element →
      ∀ here : Cursor, here.remaining ≤ p.cursor.remaining → Ends (element.read d here) := by
    intro hun element helem here hhere
    refine Element.read_ends fun ty hty => ?_
    subst hty
    cases helem with
    | struct _ hdeclared => exact henters hun hdeclared here hhere
  cases hshape with
  | @leaf l hstored hform =>
    simp only [WireEntry.decodeOp]
    split
    · exact .bind (l.readInt_ends _ _) fun _ _ => .ok _
    · exact .bind (l.read_ends _) fun _ _ => .ok _
  | nested hstored hform hdeclared =>
    have hun := Field.isUncounted_of_isStored hstored
    exact .bind (henters hun hdeclared _ (Nat.le_refl _)) fun _ _ => .ok _
  | @reserved l value hdisp hform =>
    refine .bind (l.readInt_ends _ _) fun q _ => ?_
    cases value.fixed? with
    | none => exact .ok _
    | some expected => exact .bind (Codec.checkReserved_ends _ _ _) fun _ _ => .ok _
  | @array element count hdisp helem =>
    refine .bind (Codec.countOf_ends _ _ _) fun n hn => .bind ?_ fun _ _ => .ok _
    cases count with
    | literal k =>
      obtain rfl : k = n := Except.ok.inj hn
      by_cases hzero : k = 0
      · subst hzero
        exact .ok _
      · have hun : f.isUncounted = true := by
          unfold Field.isUncounted
          rw [hdisp]
          exact decide_eq_true (Nat.pos_of_ne_zero hzero)
        exact readCounted_ends hd (huncounted hun element helem) k (Nat.le_refl _)
    | field name =>
      have hname : f.lengthName? = some name := by
        unfold Field.lengthName?
        rw [hdisp]
      have hlt := hlength name hname
      have hrefers : c.FieldRefers s f f.typeName := by
        unfold FieldRefers
        rw [hdisp]
      refine readCounted_ends hd (fun here hhere => ?_) n (Nat.le_refl _)
      refine Element.read_ends fun ty hty => ?_
      obtain rfl := (hty ▸ helem).eq_of_struct
      exact hfewer _ hrefers here (by omega)
  | @fill element hdisp helem =>
    have hun : f.isUncounted = true := by
      unfold Field.isUncounted
      rw [hdisp]
    refine .bind ?_ fun _ _ => .ok _
    exact readToEnd_ends (Element.read_forward hd element) (huncounted hun element helem) _ _
      (Nat.le_refl _)
  | @arraySized layout group hdisp hgroup =>
    have hname : f.lengthName? = some layout.lengthField := by
      unfold Field.lengthName?
      rw [hdisp]
    have hlt := hlength _ hname
    refine readRegion_ends hd fun name hname here hhere => hfewer name ?_ here (by omega)
    unfold FieldRefers
    rw [hdisp]
    rcases hname with hheader | ⟨version, id, hresolve⟩
    · exact Or.inl hheader
    · exact Or.inr ⟨group, version, id, hgroup, hresolve⟩

/-- A union is resolved to an end if its members are that are structs, from no more bytes than the
slot has. -/
theorem Codec.resolveStep_ends {slots : List UnionSlot} {entries : List (Option WireEntry)}
    (hplanned : c.schema.Planned s plan slots entries) (hwf : s.WellFormed c.schema.types)
    {slot : UnionSlot} (hslot : slot ∈ slots)
    (hmember : ∀ f ∈ s.fields, f.isStored = true → ∀ raw, p.slots.lookup slot.name = some raw →
      Ends (d f.typeName (Cursor.start raw))) :
    Ends (c.readOp d s plan (Struct.resolveStep slot).field p (Struct.resolveStep slot).op) := by
  refine .bind (p.slot_ends _ _) fun raw hraw => readUnion_ends (fun m hm => ?_) _ _
  obtain ⟨f, hf, -, hstored, -, -, helem, -⟩ := hplanned.member_of_slot hwf hslot hm
  refine Element.read_ends fun ty hty => ?_
  obtain rfl := (hty ▸ helem).eq_of_struct
  exact hmember f hf hstored raw (slot_eq_ok.mp hraw)

/-- A promised size is compared to an end, since sizes are found to an end. -/
theorem Codec.Sound.checkStep_ends (hc : c.Sound)
    (hembeds : ∀ name, ¬ Relation.TransGen c.schema.Embeds name name) (f : Field) (target : String) :
    Ends (c.readOp d s plan (f.checkStep target).field p (f.checkStep target).op) := by
  refine .bind (p.noted_ends _ _) fun found _ => .bind ?_ fun size _ =>
    .bind (checkReserved_ends _ _ _) fun _ _ => .ok _
  apply Frame.fieldSize_ends
  exact ⟨fun _ _ _ _ _ r _ ty => hc.measure_ends hembeds ty _ r,
    fun _ _ ty _ r _ => hc.measure_ends hembeds ty _ r⟩

/-- A step is read to an end, after those before it, if the structs are that the step's struct brings
into the message from fewer bytes, and those that it enters first. -/
theorem Codec.Sound.readStep_ends (hc : c.Sound)
    (hembeds : ∀ name, ¬ Relation.TransGen c.schema.Embeds name name)
    (hl : c.lookup owner = .ok (s, plan)) (hd : d.Steady free) (hadvances : d.AdvancesIn c.schema)
    {cursor : Cursor}
    (hfewer : ∀ name, c.Refers owner name → ∀ here : Cursor, here.remaining < cursor.remaining →
      Ends (d name here))
    (hfirst : ∀ name, c.schema.EntersFirst owner name →
      ∀ here : Cursor, here.remaining ≤ cursor.remaining → Ends (d name here))
    {before after : List (Step DecodeOp)} {step : Step DecodeOp}
    (hsplit : plan.decode = before ++ step :: after)
    (hp : before.foldlM (c.readStep d s plan) (Progress.start s owner cursor) = .ok p) :
    Ends (c.readStep d s plan p step) := by
  obtain ⟨hstruct, hs, -, -, -, slots, entries, hplanned⟩ := hc.planned_of_lookup hl
  have hwf := hc.linked.wellFormed s hs
  have hahead : p.cursor.remaining ≤ cursor.remaining :=
    (bounded_of_readSteps hd (bounded_start s owner cursor) hp).ahead
  have hspent : ∀ (k : Nat) (g : Field), s.fields[k]? = some g → c.schema.TakesByte s g →
      (∀ e : WireEntry, entries[k]? = some (some e) → e.step (e.decodeOp s) ∈ before) →
      p.cursor.remaining < cursor.remaining := by
    intro k g hg htakes hbefore
    obtain ⟨e, he, hentry⟩ := exists_entry_of_takesByte hplanned hwf hd hg htakes hadvances
    exact remaining_lt_of_readSteps hd hentry (hbefore e he) hp
  rw [hplanned.decode] at hsplit
  obtain ⟨place, hearlier, hat⟩ := Struct.split_decodeSteps hsplit
  refine .bind (p.holds_ends _ _) fun b _ => ?_
  cases b with
  | false => exact .ok _
  | true =>
    rcases hat with ⟨e, he, rfl⟩ | ⟨hback, hown⟩
    · -- the step of a place
      have hlt : place < s.fields.length := hplanned.length ▸ (List.getElem?_eq_some_iff.mp he).1
      obtain ⟨e', he', hentry⟩ := hplanned.places place _ (List.getElem?_eq_getElem hlt)
      obtain rfl := Option.some.inj (he.symm.trans he')
      have hf := List.getElem?_eq_getElem hlt
      have hmem := List.mem_of_getElem? hf
      cases hentry with
      | slot hslot hpos hname => exact .bind (p.cursor.take_ends _) fun _ _ => .ok _
      | own hconst hunion hshape =>
        have hfield : ∀ name, c.FieldRefers s s.fields[place] name →
            ∀ here : Cursor, here.remaining < cursor.remaining → Ends (d name here) :=
          fun name hname => hfewer name ⟨s, hstruct, _, hmem, hname⟩
        refine readOwn_ends hd (fun name hname => ?_) hfield (fun hun hdeclared here hhere => ?_) hshape
        · obtain ⟨k, g, hk, hg, -, hplain, hnumber⟩ := hwf.counted place _ hf name hname
          have htest : g.Testable c.schema.types := ⟨hplain, TypeTable.intType_of_isNumber hnumber⟩
          obtain ⟨hheld, hsolid⟩ := Schema.solid_of_testable htest
          exact hspent k g hg (.held hheld hsolid) fun e he => hearlier k e hk he
        · by_cases htaken : ∃ k < place, ∃ g, s.fields[k]? = some g ∧ c.schema.TakesByte s g
          · obtain ⟨k, hk, g, hg, htakes⟩ := htaken
            have hlt := hspent k g hg htakes fun e he => hearlier k e hk he
            exact hfield _ (fieldRefers_of_isUncounted hun) here (by omega)
          · refine hfirst _ ⟨s, hstruct, hdeclared, place, _, hf, rfl, hun, ?_⟩ here (by omega)
            exact fun k hk g hg htakes => htaken ⟨k, hk, g, hg, htakes⟩
    · obtain ⟨slot, hslot, rfl, rfl⟩ | ⟨-, f, target, -, -, -, rfl⟩ := Struct.deferredAt_cases hback
      · -- a union that is resolved after the field that it tests
        obtain ⟨k, g, hg, -, htest, hk⟩ := hplanned.tested_of_slot hwf hslot
        obtain ⟨hheld, hsolid⟩ := Schema.solid_of_testable htest
        obtain ⟨shape, hshape, he⟩ := hplanned.entry_of_held hwf hg hheld
        have hbefore : s.ownStep g shape ∈ before :=
          (Nat.lt_or_eq_of_le hk).elim (fun hk => hearlier k _ hk he) fun hk => hown _ (hk ▸ he)
        obtain ⟨n, hn, hbounded⟩ := exists_bounded_of_ownStep hd hheld hsolid (hadvances _ hsolid)
          hshape hbefore (bounded_start s owner cursor) hp
        refine resolveStep_ends hplanned hwf hslot fun f hf hstored raw hraw => ?_
        have hrefers := fieldRefers_of_isUncounted (c := c) (s := s)
          (Field.isUncounted_of_isStored hstored)
        have hslots := hbounded.slots _ raw hraw
        exact hfewer _ ⟨s, hstruct, f, hf, hrefers⟩ (Cursor.start raw)
          (Nat.lt_of_le_of_lt (Nat.le_of_add_right_le hslots) hn)
      · exact hc.checkStep_ends (d := d) hembeds f target

end Steps

/-! ## Structs -/

namespace Codec

variable {c : Codec}

/-- A struct is read to an end within as many structs as there are for each byte ahead, and as many
more as its rank and itself. -/
theorem Sound.decodeAt_ends (hc : c.Sound)
    (hembeds : ∀ name, ¬ Relation.TransGen c.schema.Embeds name name) {root : String → Prop}
    {rank : String → Nat} (hranked : c.Ranked root rank) (n : Nat) (name : String) (cursor : Cursor)
    (hname : root name) (hdepth : cursor.remaining * c.schema.structs.length + rank name < n) :
    Ends (c.decodeAt n name cursor) := by
  -- on the depth: a byte that was taken pays for every rank, and where none was the rank falls
  induction n generalizing name cursor with
  | zero => omega
  | succ n ih =>
    rw [decodeAt_succ]
    refine .bind (c.lookup_ends name) fun q hl => .bind ?_ fun _ _ => .ok _
    obtain ⟨s, plan⟩ := q
    obtain ⟨-, hs, -⟩ := hc.planned_of_lookup hl
    have hpos : 0 < c.schema.structs.length := List.length_pos_of_mem hs
    refine .foldlM fun before step after p hsplit hp => ?_
    refine hc.readStep_ends hembeds hl (hc.decodeAt_steady n) (hc.advancesIn n) ?_ ?_ hsplit hp
    · intro name' hrefers here hlt
      have hname' := hranked.closed name name' hname hrefers
      have hrank := hranked.below name' hname' hpos
      have hmul := Nat.mul_le_mul_right c.schema.structs.length hlt
      rw [Nat.succ_mul] at hmul
      exact ih name' here hname' (by omega)
    · intro name' hfirst here hle
      have hrank := hranked.falls name name' hname hfirst
      have hmul := Nat.mul_le_mul_right c.schema.structs.length hle
      exact ih name' here (hranked.closed name name' hname hfirst.enters.refers) (by omega)

theorem decodeAt_add (c : Codec) (n m : Nat) :
    c.decodeAt (n + m) = c.enter^[n] (c.decodeAt m) := by
  induction n with
  | zero => rw [Nat.zero_add, Function.iterate_zero_apply]
  | succ n ih => rw [Nat.succ_add, decodeAt_succ, ih, Function.iterate_succ_apply']

/-- Where the structs end within a depth, it does not matter what would be read below. -/
theorem Sound.iterate_enter (hc : c.Sound) (base : Decoder) (n : Nat) :
    (c.decodeAt n).RelatedOn Unless (fun _ => True) (c.enter^[n] base) := by
  induction n with
  | zero =>
    intro name cursor _ hends
    exact absurd rfl (ends_iff.mp hends name)
  | succ n ih =>
    rw [Function.iterate_succ_apply']
    exact enter_related Unless.sequential (fun _ _ _ => ⟨trivial, trivial⟩) (hc.decodeAt_steady n) ih

/-- Where a struct is read to an end within the depth that the number of bytes asks for, the depth does
not matter: a buffer is read to an end, and whatever would be read below, the outcome is the same. -/
theorem Sound.decoder_within (hc : c.Sound) {name : String} {bytes : Bytes}
    (hends : Ends (c.decodeAt ((bytes.length + 1) * c.schema.structs.length) name
      (Cursor.start bytes))) :
    Ends (c.decode name bytes) ∧ ∀ (base : Decoder) (depth : Nat),
      (bytes.length + 1) * c.schema.structs.length ≤ depth →
        c.enter^[depth] base name (Cursor.start bytes) = c.decoder name (Cursor.start bytes) := by
  let bound := (bytes.length + 1) * c.schema.structs.length
  have hbelow : ∀ (base : Decoder) (depth : Nat), bound ≤ depth →
      c.enter^[depth] base name (Cursor.start bytes) =
        c.decodeAt bound name (Cursor.start bytes) := by
    intro base depth hdepth
    obtain ⟨more, rfl⟩ := Nat.exists_eq_add_of_le hdepth
    rw [Function.iterate_add_apply]
    exact hc.iterate_enter _ bound name _ trivial hends
  have hdecoder : c.decoder name (Cursor.start bytes) =
      c.decodeAt bound name (Cursor.start bytes) := by
    have hall : c.decoder name (Cursor.start bytes) =
        c.enter^[bound + 1] (c.decodeAt 0) name (Cursor.start bytes) := by
      rw [← c.decodeAt_add]
      rfl
    rw [hall, hbelow _ _ (Nat.le_succ _)]
  constructor
  · have hfront : Ends (c.decodePrefix name bytes) := by
      unfold decodePrefix
      rw [hdecoder]
      exact hends.map _
    refine hfront.bind fun q _ => ?_
    dsimp only
    split <;> simp
  · intro base depth hdepth
    rw [hdecoder, hbelow base depth hdepth]

theorem Ranked.decodeAt_ends (hc : c.Sound)
    (hembeds : ∀ name, ¬ Relation.TransGen c.schema.Embeds name name) {root : String → Prop}
    {rank : String → Nat} (hranked : c.Ranked root rank) {s : Struct} (hs : s ∈ c.schema.structs)
    (hroot : root s.name) (bytes : Bytes) :
    Ends (c.decodeAt ((bytes.length + 1) * c.schema.structs.length) s.name
      (Cursor.start bytes)) := by
  have hrank := hranked.below s.name hroot (List.length_pos_of_mem hs)
  apply hc.decodeAt_ends hembeds hranked _ _ _ hroot
  rw [show (Cursor.start bytes).remaining = bytes.length from rfl, Nat.succ_mul]
  omega

end Codec

/-- **Reading ends, at a known depth.** If no struct enters itself, a buffer of `n` bytes is read to
an end. No more than `(n + 1) * N` structs nest, where `N` is the number of structs: whatever would be
read below that depth, the outcome is the same. And no loop up to the end of some bytes has more
rounds than there are bytes. -/
theorem decode_ends {options : Options} {decls : List Declaration} {c : Codec}
    (hcompile : compile options decls = .ok c) (hacyclic : c.schema.Acyclic) {s : Struct}
    (hs : s ∈ c.schema.structs) (bytes : Bytes) :
    (∀ name, c.decode s.name bytes ≠ .error (.endless name)) ∧
    (∀ (base : Decoder) (depth : Nat), (bytes.length + 1) * c.schema.structs.length ≤ depth →
      c.enter^[depth] base s.name (Cursor.start bytes) =
        c.decoder s.name (Cursor.start bytes)) ∧
    (∀ depth element, RoundsBounded fun here => Element.read (c.decodeAt depth) here element) ∧
    ∀ depth layout group, RoundsBounded (c.readPolymorphic (c.decodeAt depth) layout group) := by
  have hc := sound_of_compile hcompile
  have hembeds := fun name => Schema.not_embeds_self_of_compile hcompile name
  obtain ⟨hends, hdepth⟩ := hc.decoder_within (hacyclic.ranked.decodeAt_ends hc hembeds hs trivial bytes)
  refine ⟨ends_iff.mp hends, hdepth, ?_, ?_⟩
  · intro depth element
    exact (Element.read_forward (hc.decodeAt_steady depth) element).roundsBounded
  · intro depth layout group
    exact (c.readPolymorphic_forward (hc.decodeAt_steady depth) layout group).roundsBounded

/-- Trees: a tag, and as many smaller trees as a number in front of them says. -/
def treeDeclarations : List Declaration :=
  [ .struct { name := "Tag", comment := none, disposition := none
              fields := [{ name := some "value", typeName := some "uint16" }] },
    .struct { name := "Tree", comment := none, disposition := none
              fields :=
                [ { name := some "tag", typeName := some "Tag" },
                  { name := some "size", typeName := some "uint8" },
                  { name := some "children", typeName := some "Tree", disposition := some "array"
                    size := some (.text "size") } ] } ]

/-- A tree enters its tag, and its children only after their number. So six bytes are read to an end,
and no more than fourteen structs nest. -/
theorem decode_ends_tree :
    compile {} treeDeclarations = .ok (codecOf treeDeclarations) ∧
    (codecOf treeDeclarations).schema.Acyclic ∧
    ∃ s ∈ (codecOf treeDeclarations).schema.structs, s.name = "Tree" ∧
      (∀ name, (codecOf treeDeclarations).decode "Tree" [1, 0, 1, 2, 0, 0] ≠
        .error (.endless name)) ∧
      ∀ (base : Decoder) (depth : Nat), 14 ≤ depth →
        (codecOf treeDeclarations).enter^[depth] base "Tree" (Cursor.start [1, 0, 1, 2, 0, 0]) =
          (codecOf treeDeclarations).decoder "Tree" (Cursor.start [1, 0, 1, 2, 0, 0]) := by
  have hcompile : compile {} treeDeclarations = .ok (codecOf treeDeclarations) :=
    compile_codecOf (by decide +kernel)
  have hacyclic : (codecOf treeDeclarations).schema.Acyclic :=
    Schema.acyclic_of_height (fun name => if name = "Tree" then 1 else 0) (by decide +kernel)
  have hlength : (codecOf treeDeclarations).schema.structs.length = 2 := by decide +kernel
  have hdeclared : ∃ s ∈ (codecOf treeDeclarations).schema.structs, s.name = "Tree" := by
    decide +kernel
  obtain ⟨s, hs, hname⟩ := hdeclared
  obtain ⟨hends, hdepth, -⟩ := decode_ends hcompile hacyclic hs [1, 0, 1, 2, 0, 0]
  rw [hname] at hends hdepth
  rw [hlength] at hdepth
  exact ⟨hcompile, hacyclic, s, hs, hname, hends, hdepth⟩

end WireLayout
