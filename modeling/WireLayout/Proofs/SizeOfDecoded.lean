import WireLayout.Proofs.Contents
import WireLayout.Proofs.Runs

/-!
# The size of what was read

A record that was read has the size of the bytes that it was read from. The size plan asks the record
for what the reader took from the wire: which conditions hold, and how long a region is. A number of
elements is not in the record and has to be found again in an array that it counts. So where a
condition tests such a number, or a region has it as its length, one of its arrays has to be there
always.
-/

namespace WireLayout

instance (s : Struct) (name : String) : Decidable (s.Anchored name) :=
  inferInstanceAs (Decidable (s.isCount name = true →
    ∃ a ∈ s.fields, a.countedBy? = some name ∧ a.condition = none))

/-- Whether a number of elements that a condition tests or that is the length of a region counts an
array that is always there. -/
def Schema.CountsAnchored (schema : Schema) : Prop :=
  ∀ s ∈ schema.structs, ∀ f ∈ s.fields, (∀ cond ∈ f.condition, s.Anchored cond.field) ∧
    ∀ layout ∈ f.sizedArray?, s.Anchored layout.lengthField

/-- Whether this is so in the struct of a name, and in all that it refers to. -/
def Codec.AnchoredFrom (c : Codec) (name : String) : Prop :=
  ∀ other s, Relation.ReflTransGen c.Refers name other → c.schema.struct? other = some s →
    ∀ f ∈ s.fields, (∀ cond ∈ f.condition, s.Anchored cond.field) ∧
      ∀ layout ∈ f.sizedArray?, s.Anchored layout.lengthField

instance (schema : Schema) : Decidable schema.CountsAnchored :=
  inferInstanceAs (Decidable (∀ s ∈ schema.structs, ∀ f ∈ s.fields,
    (∀ cond ∈ f.condition, s.Anchored cond.field) ∧
      ∀ layout ∈ f.sizedArray?, s.Anchored layout.lengthField))

namespace Codec

/-- Whether every record that a decoder reads has the size of the bytes that it takes, where numbers of
elements can be found again. -/
def Sizes (c : Codec) (d : Decoder) : Prop :=
  ∀ name cursor r cursor', c.AnchoredFrom name → d name cursor = .ok (r, cursor') →
    ∃ used, cursor.Reads used cursor' ∧ ∀ m initial, r.depth ≤ m → used.length < sizeLimit →
      c.sizeAt m name initial r = .ok used.length

variable {c : Codec}

theorem anchoredFrom_of_countsAnchored (h : c.schema.CountsAnchored) (name : String) :
    c.AnchoredFrom name :=
  fun _ s _ hs => h s (Schema.mem_of_struct? hs).1

theorem AnchoredFrom.of_field {name : String} (h : c.AnchoredFrom name) {s : Struct}
    (hs : c.schema.struct? name = some s) {f : Field} (hf : f ∈ s.fields) (hconst : f.isConst = false)
    (hsized : f.sizedArray? = none) : c.AnchoredFrom f.typeName :=
  fun other t hr => h other t (.head (refers_of_field hs hf hconst hsized) hr)

theorem AnchoredFrom.element {ty : String} (h : c.AnchoredFrom ty) {element : Element}
    (helement : c.schema.ElementOf ty element) : ∀ ty', element = .struct ty' → c.AnchoredFrom ty' := by
  rintro ty' rfl
  exact helement.eq_of_struct ▸ h

/-! ## Elements -/

/-- An element has the size of its bytes. -/
theorem Sizes.element {d : Decoder} (hd : c.Sizes d) {element : Element}
    (hanchored : ∀ ty, element = .struct ty → c.AnchoredFrom ty) {cursor cursor' : Cursor}
    {v : Value} (h : element.read d cursor = .ok (v, cursor')) :
    ∃ used, cursor.Reads used cursor' ∧ ∀ m field, v.depth ≤ m → used.length < sizeLimit →
      element.size (c.sizeAt m) field v = .ok used.length := by
  cases element with
  | leaf l =>
    obtain ⟨bytes, hwrite, hreads⟩ := Leaf.write_of_read h ""
    refine ⟨bytes, hreads, fun m field _ _ => ?_⟩
    rw [Leaf.length_of_write hwrite]
    rfl
  | struct ty =>
    obtain ⟨⟨r, after⟩, hr, hpair⟩ := map_eq_ok.mp h
    cases hpair
    obtain ⟨used, hreads, hsize⟩ := hd ty cursor r _ (hanchored ty rfl) hr
    refine ⟨used, hreads, fun m field hm hlt => ?_⟩
    have hrecord : asRecord field r.toValue = .ok r := asRecord_eq_ok.mpr rfl
    simp only [Element.size, hrecord]
    exact hsize m [] hm hlt

/-- The sizes of the elements of an array add up to the number of their bytes. -/
theorem Sizes.items {d : Decoder} (hd : c.Sizes d) {element : Element}
    (hanchored : ∀ ty, element = .struct ty → c.AnchoredFrom ty) {cursor cursor' : Cursor}
    {items : List Value} (h : ReadsItems (fun here => element.read d here) cursor items cursor') :
    ∃ used, cursor.Reads used cursor' ∧ ∀ m field total, (∀ v ∈ items, v.depth ≤ m) →
      total + used.length < sizeLimit →
        elementsSize (c.sizeAt m) element field total items = .ok (total + used.length) := by
  induction h with
  | nil cursor => exact ⟨[], .refl cursor, fun _ _ _ _ _ => rfl⟩
  | cons hv _ ih =>
    obtain ⟨front, hfront, hfirst⟩ := hd.element hanchored hv
    obtain ⟨used, hused, hrest⟩ := ih
    refine ⟨front ++ used, hfront.trans hused, fun m field total hm hlt => ?_⟩
    rw [List.length_append] at hlt
    have hsize := hfirst m field (hm _ (by simp)) (by omega)
    have hmore := hrest m field (total + front.length)
      (fun w hw => hm w (List.mem_cons_of_mem _ hw)) (by omega)
    have hgrow : grow total front.length field = .ok (total + front.length) :=
      grow_eq_ok.mpr ⟨rfl, by omega⟩
    simp only [elementsSize, hsize, hgrow, ok_bind, hmore, List.length_append]
    congr 1
    omega

/-- An integer takes as many bytes as its type. -/
theorem reads_of_readInt {leaf : Leaf} {field : String} {cursor cursor' : Cursor} {n : Int}
    (h : leaf.readInt field cursor = .ok (n, cursor')) :
    ∃ used, cursor.Reads used cursor' ∧ used.length = leaf.form.width := by
  cases hform : leaf.form with
  | bytes len =>
    unfold Leaf.readInt at h
    rw [hform] at h
    cases h
  | int t =>
    rw [Leaf.readInt_eq_ok t hform] at h
    obtain ⟨bytes, hwrite, hreads⟩ := Leaf.write_of_read h field
    exact ⟨bytes, hreads, hform ▸ Leaf.length_of_write hwrite⟩

/-! ## Places -/

section Places

variable {d : Decoder} {s : Struct} {plan : Plan} {slots : List UnionSlot}
  {entries : List (Option WireEntry)} {st mid : Nat → Progress}
  (hr : c.Ran d s plan slots entries st mid)

include hr

/-- A list has the size of the bytes that its elements were read from. -/
theorem Ran.listSize (hd : c.Sizes d) {m : Nat} (hdepth : (st entries.length).record.depth ≤ m + 1)
    (initial : List Initializer) {i : Nat} {f : Field} (hi : s.fields[i]? = some f)
    (hunion : s.unionOf? f.name = none) {element : Element} {op : SizeOp}
    (hop : op = .array element ∨ op = .fill element)
    (hanchored : ∀ ty, element = .struct ty → c.AnchoredFrom ty) {items : List Value}
    {cursor : Cursor} (hitems : ReadsItems (fun here => element.read d here) (st i).cursor items cursor)
    (hmid : ((st i).store f.name (.list items)).moveTo cursor = mid i) :
    ∃ used, (st i).cursor.Reads used (mid i).cursor ∧ (used.length < sizeLimit →
      (Frame.mk s plan (st entries.length).record initial).opSize (c.sizeAt m) f.name op =
        .ok used.length) := by
  have hget := hr.get?_of_store hi hunion hmid
  -- the elements nest less deep than the record
  have hdepths : ∀ v ∈ items, v.depth ≤ m := by
    intro v hv
    have hlt := Record.depth_lt_of_mem hget hv
    omega
  obtain ⟨used, hreads, hsize⟩ := hd.items hanchored hitems
  refine ⟨used, by rw [← hmid]; exact hreads, fun hlt => ?_⟩
  have hsum := hsize m f.name 0 hdepths (by omega)
  rw [Nat.zero_add] at hsum
  have hlist : (Frame.mk s plan (st entries.length).record initial).list f.name = .ok items :=
    Frame.list_eq_ok.mpr hget
  rcases hop with rfl | rfl
  · exact bind_eq_ok.mpr ⟨items, hlist, hsum⟩
  · exact bind_eq_ok.mpr ⟨items, hlist, hsum⟩

/-- A region has the size of the bytes that it was read from: its length field says in the record what
it said on the wire. -/
theorem Ran.regionSize (initial : List Initializer) (m : Nat) {i : Nat} {f : Field}
    (hi : s.fields[i]? = some f) {layout : SizedArray} (hlayout : f.sizedArray? = some layout)
    (hanchored : s.Anchored layout.lengthField) {group : String}
    (hread : c.readOp d s plan f.name (st i) (.arraySized layout group) = .ok (mid i)) :
    ∃ used, (st i).cursor.Reads used (mid i).cursor ∧
      (Frame.mk s plan (st entries.length).record initial).opSize (c.sizeAt m) f.name
        (.byteLength layout.lengthField) = .ok used.length := by
  simp only [Codec.readOp, bind_eq_ok] at hread
  obtain ⟨n, hn, len, hlen, ⟨region, cursor⟩, htake, ⟨items, last⟩, -, hmid⟩ := hread
  obtain ⟨⟨front, next⟩, hfrom, heq⟩ := map_eq_ok.mp htake
  cases heq
  obtain ⟨hreads, hfront⟩ := Cursor.reads_of_take hfrom
  obtain ⟨hn', hlt⟩ := toLength_eq_ok.mp hlen
  obtain ⟨j, g, hg, hname, ht, hfinal⟩ :=
    hr.lookup_length hi (Field.lengthName?_of_sizedArray? hlayout) (noted_eq_ok.mp hn)
  rw [← hname] at hanchored hfinal
  have hint := hr.intOf_of_anchored (Frame.mk s plan (st entries.length).record initial) rfl rfl
    (List.mem_of_getElem? hg) ht hanchored hfinal (c.sizeAt m)
  rw [hname] at hint
  refine ⟨front, by rw [← Except.ok.inj hmid]; exact hreads, ?_⟩
  exact bind_eq_ok.mpr ⟨n, hint, toLength_eq_ok.mpr ⟨by rw [hn', hfront], hfront ▸ hlt⟩⟩

/-- A field of its own has the size of the bytes that it was read from. -/
theorem Ran.ownSize (hd : c.Sizes d)
    {m : Nat} (hdepth : (st entries.length).record.depth ≤ m + 1) (initial : List Initializer)
    {i : Nat} {f : Field} (hi : s.fields[i]? = some f) (hunion : s.unionOf? f.name = none)
    (hpart : f.sizedArray? = none → c.AnchoredFrom f.typeName)
    (hregion : ∀ layout ∈ f.sizedArray?, s.Anchored layout.lengthField) {shape : WireShape}
    (hshape : c.schema.Shaped s f shape) {role : Role} {guard : Option Condition}
    (hread : c.readOp d s plan f.name (st i)
      (WireEntry.decodeOp s { field := f.name, role, guard, shape }) = .ok (mid i)) :
    ∃ used, (st i).cursor.Reads used (mid i).cursor ∧ (used.length < sizeLimit →
      (Frame.mk s plan (st entries.length).record initial).opSize (c.sizeAt m) f.name
        (WireEntry.sizeOp { field := f.name, role, guard, shape }) = .ok used.length) := by
  cases hshape with
  | @leaf leaf hstored hform =>
    have hreads : ∃ used, (st i).cursor.Reads used (mid i).cursor ∧
        used.length = leaf.form.width := by
      by_cases hcount : s.isCount f.name = true
      · simp only [WireEntry.decodeOp, hcount, if_true] at hread
        obtain ⟨⟨n, cursor⟩, hn, hmid⟩ := bind_eq_ok.mp hread
        rw [← Except.ok.inj hmid]
        exact reads_of_readInt hn
      · simp only [WireEntry.decodeOp, hcount, if_false, Bool.false_eq_true] at hread
        obtain ⟨⟨v, cursor⟩, hv, hmid⟩ := bind_eq_ok.mp hread
        obtain ⟨bytes, hwrite, hreads⟩ := Leaf.write_of_read hv f.name
        rw [← Except.ok.inj hmid]
        exact ⟨bytes, hreads, Leaf.length_of_write hwrite⟩
    obtain ⟨used, hreads, hlen⟩ := hreads
    exact ⟨used, hreads, fun _ => congrArg Except.ok hlen.symm⟩
  | @reserved leaf value hdisp hform =>
    obtain ⟨⟨found, cursor⟩, hfound, hmid⟩ := bind_eq_ok.mp hread
    obtain ⟨used, hreads, hlen⟩ := reads_of_readInt hfound
    have hcursor : (mid i).cursor = cursor := by
      cases hfixed : value.fixed? with
      | none =>
        rw [hfixed] at hmid
        rw [← Except.ok.inj hmid]
        rfl
      | some expected =>
        rw [hfixed] at hmid
        obtain ⟨u, -, hmid⟩ := bind_eq_ok.mp hmid
        rw [← Except.ok.inj hmid]
        rfl
    refine ⟨used, ?_, fun _ => congrArg Except.ok hlen.symm⟩
    rw [hcursor]
    exact hreads
  | nested hstored hform hstruct =>
    obtain ⟨⟨r, cursor⟩, hrec, hmid⟩ := bind_eq_ok.mp hread
    have hmid := Except.ok.inj hmid
    have hfound := hr.get?_of_store hi hunion hmid
    obtain ⟨used, hreads, hsize⟩ := hd _ _ _ _ (hpart (Field.sizedArray?_of_isStored hstored)) hrec
    have hlt : r.toValue.depth < _ := Record.depth_lt_of_get? hfound
    have hm : r.depth ≤ m := Nat.le_of_lt_succ (Nat.lt_of_lt_of_le hlt hdepth)
    have hrecord : asRecord f.name r.toValue = .ok r := asRecord_eq_ok.mpr rfl
    refine ⟨used, by rw [← hmid]; exact hreads, fun hlt => ?_⟩
    simp only [WireEntry.sizeOp, Frame.opSize, Frame.nested, hfound, hrecord, ok_bind]
    exact hsize m _ hm hlt
  | @array element count hdisp helem =>
    have hsized : f.sizedArray? = none := by unfold Field.sizedArray?; rw [hdisp]
    simp only [WireEntry.decodeOp, Codec.readOp, bind_eq_ok] at hread
    obtain ⟨n, -, ⟨items, cursor⟩, hitems, hmid⟩ := hread
    exact hr.listSize hd hdepth initial hi hunion (Or.inl rfl) ((hpart hsized).element helem)
      (readsItems_of_readCounted hitems) (Except.ok.inj hmid)
  | @fill element hdisp helem =>
    have hsized : f.sizedArray? = none := by unfold Field.sizedArray?; rw [hdisp]
    obtain ⟨⟨items, cursor⟩, hitems, hmid⟩ := bind_eq_ok.mp hread
    exact hr.listSize hd hdepth initial hi hunion (Or.inr rfl) ((hpart hsized).element helem)
      (readsItems_of_readToEnd hitems).1 (Except.ok.inj hmid)
  | @arraySized layout group hdisp hgroup =>
    have hlayout : f.sizedArray? = some layout := by unfold Field.sizedArray?; rw [hdisp]
    obtain ⟨used, hreads, hsize⟩ :=
      hr.regionSize initial m hi hlayout (hregion layout hlayout) hread
    exact ⟨used, hreads, fun _ => hsize⟩

/-- An entry has the size of the bytes that it was read from, and none where it was passed. -/
theorem Ran.entrySize (hd : c.Sizes d) {name : String} (hs : c.schema.struct? name = some s)
    (hanchored : c.AnchoredFrom name)
    {m : Nat} (hdepth : (st entries.length).record.depth ≤ m + 1) (initial : List Initializer)
    {i : Nat} {e : WireEntry} (he : entries[i]? = some (some e)) :
    ∃ used b, (st i).cursor.Reads used (st (i + 1)).cursor ∧
      (Frame.mk s plan (st entries.length).record initial).holds (c.sizeAt m) e.guard = .ok b ∧
      (b = false → used = []) ∧ (b = true → used.length < sizeLimit →
        (Frame.mk s plan (st entries.length).record initial).opSize (c.sizeAt m) e.field e.sizeOp =
          .ok used.length) := by
  have hi : i < entries.length := (List.getElem?_eq_some_iff.mp he).1
  have hlt : i < s.fields.length := hr.planned.length ▸ hi
  obtain ⟨e', he', hentry⟩ := hr.planned.places i _ (List.getElem?_eq_getElem hlt)
  rw [he] at he'
  cases he'
  rw [hr.cursor hi]
  cases hentry with
  | @slot slot hslot hpos hname =>
    rcases hr.entry_cases he with ⟨hfalse, -⟩ | ⟨-, hread⟩
    · cases hfalse
    · obtain ⟨⟨raw, cursor⟩, htake, hmid⟩ := bind_eq_ok.mp hread
      obtain ⟨hreads, hlen⟩ := Cursor.reads_of_take htake
      have hmid := Except.ok.inj hmid
      refine ⟨raw, true, by rw [← hmid]; exact hreads, rfl, (fun h => by cases h), fun _ _ => ?_⟩
      exact congrArg Except.ok hlen.symm
  | own hconst hunion hshape =>
    have hf : s.fields[i] ∈ s.fields := List.getElem_mem hlt
    have hhere := hanchored name s .refl hs
    have hholds := fun b h => hr.holds (Frame.mk s plan (st entries.length).record initial) rfl rfl hf
      (fun cond hcond => hr.recounts_of_anchored ((hhere _ hf).1 cond hcond)) (Nat.le_of_lt hi)
      (b := b) h (c.sizeAt m)
    rcases hr.entry_cases he with ⟨hfalse, hskip⟩ | ⟨htrue, hread⟩
    · refine ⟨[], false, ?_, hholds false hfalse, fun _ => rfl, fun h => by cases h⟩
      rw [hskip]
      exact .refl _
    · obtain ⟨used, hreads, hsize⟩ := hr.ownSize hd hdepth initial (List.getElem?_eq_getElem hlt)
        hunion (hanchored.of_field hs hf hconst) (hhere _ hf).2 hshape hread
      exact ⟨used, true, hreads, hholds true htrue, (fun h => by cases h), fun _ => hsize⟩

/-- The sizes of the entries from a place on add up to the number of bytes that they were read
from. -/
theorem Ran.sizesFrom (hd : c.Sizes d) {name : String} (hs : c.schema.struct? name = some s)
    (hanchored : c.AnchoredFrom name)
    {m : Nat} (hdepth : (st entries.length).record.depth ≤ m + 1) (initial : List Initializer)
    (k : Nat) {i : Nat} (hi : i + k = entries.length) :
    ∃ used, (st i).cursor.Reads used (st entries.length).cursor ∧
      ∀ total, total + used.length < sizeLimit →
        (Frame.mk s plan (st entries.length).record initial).stepsSize (c.sizeAt m) total
          (((entries.drop i).filterMap id).map fun e => e.step e.sizeOp) =
            .ok (total + used.length) := by
  induction k generalizing i with
  | zero =>
    obtain rfl : i = entries.length := hi
    rw [List.drop_length]
    exact ⟨[], .refl _, fun _ _ => rfl⟩
  | succ k ih =>
    have hlt : i < entries.length := by omega
    obtain ⟨used, hreads, hsize⟩ := ih (i := i + 1) (by omega)
    rw [List.drop_eq_getElem_cons hlt]
    cases he : entries[i] with
    | none =>
      have hskip := hr.skip i (List.getElem?_eq_some_iff.mpr ⟨hlt, he⟩)
      rw [hr.cursor hlt, hskip] at hreads
      exact ⟨used, hreads, hsize⟩
    | some e =>
      obtain ⟨front, b, hfront, hholds, hpassed, hfirst⟩ := hr.entrySize hd hs hanchored hdepth
        initial (List.getElem?_eq_some_iff.mpr ⟨hlt, he⟩)
      refine ⟨front ++ used, hfront.trans hreads, fun total htotal => ?_⟩
      rw [List.length_append] at htotal ⊢
      have hmore : (some e :: entries.drop (i + 1)).filterMap id =
          e :: (entries.drop (i + 1)).filterMap id := rfl
      rw [hmore, List.map_cons]
      simp only [Frame.stepsSize, WireEntry.step, hholds, ok_bind]
      cases b with
      | false =>
        obtain rfl := hpassed rfl
        rw [List.length_nil, Nat.zero_add] at htotal ⊢
        exact hsize total htotal
      | true =>
        have hgrow : grow total front.length e.field = .ok (total + front.length) :=
          grow_eq_ok.mpr ⟨rfl, by omega⟩
        simp only [if_true, hfirst rfl (by omega), hgrow, ok_bind]
        rw [← Nat.add_assoc]
        exact hsize (total + front.length) (by omega)

end Places

/-! ## Records -/

/-- A record that was read is one of the struct that it was read as. -/
theorem typeName_of_decodeAt {n : Nat} {name : String} {cursor cursor' : Cursor} {r : Record}
    (h : c.decodeAt n name cursor = .ok (r, cursor')) : r.typeName = name := by
  cases n with
  | zero => cases h
  | succ n =>
    simp only [decodeAt, bind_eq_ok] at h
    obtain ⟨⟨s, plan⟩, -, p, hp, h⟩ := h
    cases h
    exact (sorted_of_steps hp List.Pairwise.nil).1

/-- What is read has the size of the bytes that it takes. -/
theorem Sound.sizes (hc : c.Sound) (n : Nat) : c.Sizes (c.decodeAt n) := by
  induction n with
  | zero =>
    intro name cursor r cursor' _ h
    cases h
  | succ n ih =>
    intro name cursor r cursor' hanchored h
    have htype := typeName_of_decodeAt h
    obtain ⟨s, plan, slots, entries, st, mid, hl, hr, hstart, rfl, rfl⟩ := hc.ran_of_decodeAt h
    obtain ⟨hs, -⟩ := hc.planned_of_lookup hl
    have hsizes := fun m hm initial => hr.sizesFrom (i := 0) ih hs hanchored (m := m) hm initial
      entries.length (Nat.zero_add _)
    obtain ⟨used, hreads, -⟩ := hsizes _ (Nat.le_succ _) []
    rw [hstart] at hreads
    refine ⟨used, hreads, fun m initial hm hlt => ?_⟩
    cases m with
    | zero =>
      rw [Record.depth_eq] at hm
      exact absurd hm (Nat.not_succ_le_zero _)
    | succ m =>
      obtain ⟨used', hreads', hsize⟩ := hsizes m hm (initial ++ plan.initializers)
      rw [hstart] at hreads'
      obtain rfl : used' = used := List.append_cancel_right (hreads'.rest.symm.trans hreads.rest)
      have htotal := hsize 0 (by omega)
      rw [Nat.zero_add] at htotal
      refine bind_eq_ok.mpr ⟨_, frame_eq_ok.mpr ⟨s, plan, hl, htype, rfl⟩, ?_⟩
      rw [hr.planned.size]
      exact htotal

end Codec

/-- **The size of what was read.** A record that was read from the front of a buffer has the size of
the bytes that it took. A number of elements that a condition tests, or that is the length of a
region, has to count an array that is always there. -/
theorem size_of_decodePrefix {options : Options} {decls : List Declaration} {c : Codec}
    (hcompile : compile options decls = .ok c) (hanchored : c.schema.CountsAnchored)
    {name : String} {bytes : Bytes} (hlt : bytes.length < sizeLimit) {r : Record} {used : Nat}
    (h : c.decodePrefix name bytes = .ok (r, used)) : c.size r = .ok used := by
  have hc := sound_of_compile hcompile
  obtain ⟨⟨r', after⟩, hread, hpair⟩ := map_eq_ok.mp h
  cases hpair
  obtain ⟨front, hreads, hsize⟩ := hc.sizes _ _ _ _ _
    (Codec.anchoredFrom_of_countsAnchored hanchored name) hread
  obtain ⟨hrest, hoffset⟩ := Cursor.Reads.start_iff.mp hreads
  have hfront : front.length < sizeLimit := by
    rw [hrest, List.length_append] at hlt
    omega
  dsimp only
  unfold Codec.size Codec.measure
  rw [Codec.typeName_of_decodeAt hread, hoffset]
  exact hsize (c.depthOf r') [] (Nat.le_add_right _ _) hfront

/-- A roster: its names are only there on demand, and its note is there unless it is empty. -/
def rosterDeclarations : List Declaration :=
  [ .struct { name := "Roster", comment := none, disposition := none
              fields :=
                [ { name := some "count", typeName := some "uint8" },
                  { name := some "named", typeName := some "uint8" },
                  { name := some "names", typeName := some "uint32", disposition := some "array"
                    size := some (.text "count"), condition := some "named"
                    conditionOperation := some "equals", conditionValue := some (.unsigned 1) },
                  { name := some "ids", typeName := some "uint16", disposition := some "array"
                    size := some (.text "count") },
                  { name := some "note", typeName := some "uint8", condition := some "count"
                    conditionOperation := some "not_equals"
                    conditionValue := some (.unsigned 0) } ] } ]

/-- A roster of two ids without names has seven bytes: that its note is there is found out by counting
the ids. -/
theorem size_of_decodePrefix_roster :
    compile {} rosterDeclarations = .ok (codecOf rosterDeclarations) ∧
    (codecOf rosterDeclarations).schema.CountsAnchored ∧
    ∃ r, (codecOf rosterDeclarations).decodePrefix "Roster" [2, 0, 5, 0, 6, 0, 9, 99] =
        .ok (r, 7) ∧ (codecOf rosterDeclarations).size r = .ok 7 := by
  have hcompile : compile {} rosterDeclarations = .ok (codecOf rosterDeclarations) :=
    compile_codecOf (by decide +kernel)
  have hanchored : (codecOf rosterDeclarations).schema.CountsAnchored := by decide +kernel
  have hread : ((codecOf rosterDeclarations).decodePrefix "Roster"
      [2, 0, 5, 0, 6, 0, 9, 99]).toOption.map (·.2) = some 7 := by decide +kernel
  obtain ⟨⟨r, n⟩, hr, hn⟩ := Option.map_eq_some_iff.mp hread
  obtain rfl : n = 7 := hn
  have hr' := eq_ok_of_toOption hr
  exact ⟨hcompile, hanchored, r, hr', size_of_decodePrefix hcompile hanchored (by decide) hr'⟩

end WireLayout
