import WireLayout.Codec.Encode
import WireLayout.Proofs.Canonical
import WireLayout.Proofs.Contents
import WireLayout.Proofs.Fuel

/-!
# Rereading elements

An element that was written is read back from its bytes, wherever they lie, and so are the elements of
an array, of a region and of an array that goes on to the end. The elements of a region are told apart
by their headers: a header holds an integer, which takes a byte, so no element of a region is empty.
-/

namespace WireLayout

/-! ## Elements that their headers tell -/

namespace Codec

/-- Whether the headers of the elements in a record's regions tell what the elements are. -/
def DispatchedHere (c : Codec) (r : Record) : Prop :=
  ∀ s plan, c.lookup r.typeName = .ok (s, plan) → ∀ f ∈ s.fields, ∀ layout ∈ f.sizedArray?,
    ∀ group, c.schema.arrayGroup s f layout.binding = .ok group → ∀ items,
      r.get? f.name = some (.list items) → ∀ x : Record, x.toValue ∈ items →
        ∃ bytes key, c.encode x = .ok bytes ∧ c.decodeHeader layout.binding bytes = .ok key ∧
          c.dispatch.resolve? group (key.2.getD 0) key.1 = some x.typeName

theorem dispatchedHere_iff {c : Codec} {r : Record} :
    c.DispatchedHere r ↔ ∀ q ∈ (c.lookup r.typeName).toOption, ∀ f ∈ q.1.fields,
      ∀ layout ∈ f.sizedArray?, ∀ group ∈ (c.schema.arrayGroup q.1 f layout.binding).toOption,
        ∀ items ∈ (r.get? f.name).bind Value.list?, ∀ x ∈ items.filterMap Value.record?,
          (((c.encode x).bind (c.decodeHeader layout.binding)).toOption.bind fun key =>
            c.dispatch.resolve? group (key.2.getD 0) key.1) = some x.typeName := by
  constructor
  · intro h q hq f hf layout hlayout group hgroup items hitems x hx
    obtain ⟨v, hget, hv⟩ := Option.bind_eq_some_iff.mp hitems
    obtain rfl := Value.list?_eq_some.mp hv
    obtain ⟨w, hmem, hw⟩ := List.mem_filterMap.mp hx
    obtain rfl := Value.record?_eq_some.mp hw
    obtain ⟨bytes, key, henc, hkey, hresolve⟩ := h q.1 q.2 (eq_ok_of_toOption hq) f hf layout hlayout
      group (eq_ok_of_toOption hgroup) items hget x hmem
    have hhead : (c.encode x).bind (c.decodeHeader layout.binding) = .ok key :=
      bind_eq_ok.mpr ⟨bytes, henc, hkey⟩
    rw [hhead]
    exact hresolve
  · intro h s plan hl f hf layout hlayout group hgroup items hget x hx
    have hresolve := h (s, plan) (by rw [hl]; rfl) f hf layout hlayout group (by rw [hgroup]; rfl)
      items (by rw [hget]; rfl) x (List.mem_filterMap.mpr ⟨_, hx, Value.record?_toValue x⟩)
    obtain ⟨key, hkey, hresolve⟩ := Option.bind_eq_some_iff.mp hresolve
    obtain ⟨bytes, henc, hkey⟩ := bind_eq_ok.mp (eq_ok_of_toOption hkey)
    exact ⟨bytes, key, henc, hkey, hresolve⟩

instance (c : Codec) (r : Record) : Decidable (c.DispatchedHere r) :=
  decidable_of_iff _ dispatchedHere_iff.symm

/-- Whether this holds for a record and for all records in it. -/
def Dispatched (c : Codec) (r : Record) : Prop := ∀ x, x.Within r → c.DispatchedHere x

/-- Whether a record is one that its bytes tell. -/
structure Proper (c : Codec) (r : Record) : Prop where
  canonical : c.Canonical r
  dispatched : c.Dispatched r

theorem Proper.within {c : Codec} {r x : Record} (h : c.Proper r) (hx : x.Within r) : c.Proper x where
  canonical := h.canonical.within hx
  dispatched := fun _ hy => h.dispatched _ (hy.trans hx)

/-- Whether every proper record that an encoder writes is read back from its bytes, if it has no array
that goes on to the end of the buffer. -/
def Rereads (c : Codec) (e : Encoder) : Prop :=
  ∀ name initial r bytes, c.Proper r → c.FillFree name → e name initial r = .ok bytes →
    ∀ cursor last, cursor.Reads bytes last → c.decoder name cursor = .ok (r, last)

end Codec

/-! ## Records that are read from no bytes -/

/-- Whether no path through nested records leads to an integer. -/
def Record.Bare (r : Record) : Prop := ∀ path, (r.atPath? path).bind Value.int? = none

/-- Whether a value is no integer, and no path through nested records leads from it to one. -/
def Value.Bare (v : Value) : Prop := v.int? = none ∧ ∀ r, v = Record.toValue r → r.Bare

theorem Record.bare_of_get? {r : Record} (h : ∀ name v, r.get? name = some v → v.Bare) : r.Bare := by
  intro path
  match path with
  | [] => rfl
  | [last] =>
    rw [atPath?]
    cases hget : r.get? last with
    | none => rfl
    | some v => exact (h last v hget).1
  | hop :: next :: path =>
    rw [atPath?]
    · cases hget : r.get? hop with
      | none => rfl
      | some v =>
        cases hrecord : v.record? with
        | none => simp [hrecord]
        | some x =>
          have hbare := (h hop v hget).2 x (Value.record?_eq_some.mp hrecord) (next :: path)
          simpa [hrecord] using hbare
    · simp

theorem Value.bare_list (items : List Value) : (Value.list items).Bare :=
  ⟨rfl, fun r h => by cases h⟩

theorem Value.bare_record {r : Record} (h : r.Bare) : r.toValue.Bare := by
  refine ⟨rfl, fun r' heq => ?_⟩
  have heq := congrArg Value.record? heq
  simp only [Value.record?_toValue, Option.some.injEq] at heq
  exact heq ▸ h

/-- An integer takes a byte. -/
theorem Leaf.bare_of_read {leaf : Leaf} {cursor last : Cursor} {v : Value}
    (h : leaf.read cursor = .ok (v, last)) (hnil : cursor.rest = []) : v.Bare := by
  unfold read at h
  split at h
  · rename_i t _
    obtain ⟨⟨n, cursor'⟩, hint, -⟩ := map_eq_ok.mp h
    obtain ⟨⟨front, cursor'⟩, htake, -⟩ := map_eq_ok.mp hint
    obtain ⟨hreads, hlen⟩ := Cursor.reads_of_take htake
    have hrest := hreads.rest
    rw [hnil] at hrest
    have hpos := t.bytes_pos
    rw [← hlen, (List.append_eq_nil_iff.mp hrest.symm).1] at hpos
    cases hpos
  · obtain ⟨p, -, h⟩ := map_eq_ok.mp h
    cases h
    exact ⟨rfl, fun r heq => by cases heq⟩

namespace Codec

variable {c : Codec}

/-- Whether what a decoder reads from no bytes has no integers. -/
def BareAtEnd (d : Decoder) : Prop :=
  ∀ name cursor r last, cursor.rest = [] → d name cursor = .ok (r, last) → r.Bare

theorem BareAtEnd.element {d : Decoder} (hd : BareAtEnd d) {element : Element} {cursor last : Cursor}
    {v : Value} (h : element.read d cursor = .ok (v, last)) (hnil : cursor.rest = []) : v.Bare := by
  cases element with
  | leaf l => exact l.bare_of_read h hnil
  | struct ty =>
    obtain ⟨⟨r, last'⟩, hr, h⟩ := map_eq_ok.mp h
    cases h
    exact Value.bare_record (hd _ _ _ _ hnil hr)

theorem BareAtEnd.stores {d : Decoder} (hd : BareAtEnd d) {p : Progress}
    (hp : p.Inside fun bytes => bytes = []) {v : Value} (h : c.Stores d p v) : v.Bare := by
  cases h with
  | leaf h => exact Leaf.bare_of_read h hp.cursor
  | nested h => exact Value.bare_record (hd _ _ _ _ hp.cursor h)
  | items _ => exact Value.bare_list _
  | region _ => exact Value.bare_list _
  | member hraw h => exact hd.element h (hp.slots _ _ hraw)

/-- A record that is read from no bytes has no integers. -/
theorem Sound.bareAtEnd (hc : c.Sound) (n : Nat) : BareAtEnd (c.decodeAt n) := by
  have hkind : ClosedUnderParts fun bytes => bytes = [] := fun a b h => List.append_eq_nil_iff.mp h
  induction n with
  | zero =>
    intro name cursor r last _ h
    cases h
  | succ n ih =>
    intro name cursor r last hnil h
    simp only [decodeAt, bind_eq_ok] at h
    obtain ⟨⟨s, plan⟩, -, p, hp, h⟩ := h
    cases h
    have hinv := foldlM_invariant
      (fun p : Progress => p.Inside (fun bytes => bytes = []) ∧
        ∀ name v, p.record.get? name = some v → v.Bare) ?_
      ⟨inside_start s name hnil, fun name v hget => by cases hget⟩ hp
    · exact Record.bare_of_get? hinv.2
    · rintro step - p p' ⟨hin, hbare⟩ hstep
      refine ⟨inside_of_readStep hkind (hc.decodeAt_steady n) hin hstep, fun name v hget => ?_⟩
      rcases stores_of_readStep hstep with hrecord | ⟨key, w, hrecord, hw⟩
      · exact hbare name v (hrecord ▸ hget)
      · rw [hrecord, Record.get?_insert] at hget
        split at hget
        · exact Option.some.inj hget ▸ ih.stores hin hw
        · exact hbare name v hget

/-- The header of a group is not read from no bytes. -/
theorem Sound.ne_nil_of_decodeHeader (hc : c.Sound) {b : HeaderBinding} {bytes : Bytes}
    {key : Int × Option Nat} (h : c.decodeHeader b bytes = .ok key) : bytes ≠ [] := by
  rintro rfl
  obtain ⟨⟨r, last⟩, hr, hkey⟩ := bind_eq_ok.mp h
  have hbare := hc.bareAtEnd _ _ _ _ _ rfl hr
  obtain ⟨id, hid, -⟩ := bind_eq_ok.mp hkey
  unfold headerInt at hid
  cases hpath : c.schema.memberPath? b.header b.typeField with
  | none =>
    rw [hpath] at hid
    cases hid
  | some path =>
    rw [hpath, Option.bind_some, hbare path] at hid
    cases hid

/-! ## Elements -/

section Elements

variable {e : Encoder} {field : String}

/-- An element that was written is read back. -/
theorem Rereads.element (he : c.Rereads e) {element : Element} {v : Value} {bytes : Bytes}
    (h : element.write e field v = .ok bytes) (hv : ∀ r, v = Record.toValue r → c.Proper r)
    (hfree : ∀ ty, element = .struct ty → c.FillFree ty) {cursor last : Cursor}
    (hreads : cursor.Reads bytes last) : element.read c.decoder cursor = .ok (v, last) := by
  cases element with
  | leaf l => exact Leaf.read_of_write h hreads
  | struct ty =>
    obtain ⟨r, hr, h⟩ := bind_eq_ok'.mp h
    obtain rfl := asRecord_eq_ok.mp hr
    have hread := he ty [] r bytes (hv r rfl) (hfree ty rfl) h cursor last hreads
    exact map_eq_ok.mpr ⟨(r, last), hread, rfl⟩

/-- The elements of a counted array that were written are read back. -/
theorem Rereads.counted (he : c.Rereads e) {element : Element} {items : List Value} {bytes : Bytes}
    (h : joinM (fun v => element.write e field v) items = .ok bytes)
    (hv : ∀ v ∈ items, ∀ r, v = Record.toValue r → c.Proper r)
    (hfree : ∀ ty, element = .struct ty → c.FillFree ty) {cursor last : Cursor}
    (hreads : cursor.Reads bytes last) :
    readCounted c.decoder element items.length cursor = .ok (items, last) := by
  induction items generalizing bytes cursor with
  | nil =>
    cases h
    rw [hreads.eq_of_nil]
    rfl
  | cons v rest ih =>
    simp only [joinM, bind_eq_ok] at h
    obtain ⟨front, hfront, more, hmore, h⟩ := h
    cases h
    obtain ⟨next, hnext, hlast⟩ := hreads.split
    have hread := he.element hfront (hv v (by simp)) hfree hnext
    have hrest := ih hmore (fun w hw => hv w (List.mem_cons_of_mem _ hw)) hlast
    rw [List.length_cons, readCounted]
    simp only [hread, ok_bind, hrest]

/-- A loop that goes on to the end of the bytes takes an element that is not empty. -/
theorem readToEnd_cons {read : Cursor → Except CodecError (Value × Cursor)} {used : Bytes}
    {cursor next last : Cursor} (hreads : cursor.Reads used next) (hne : used ≠ []) {v : Value}
    (hread : read cursor = .ok (v, next)) {items : List Value}
    (hrest : ∀ rounds, next.remaining ≤ rounds →
      readToEnd field read rounds next = .ok (items, last)) {rounds : Nat}
    (hrounds : cursor.remaining ≤ rounds) :
    readToEnd field read rounds cursor = .ok (v :: items, last) := by
  have hpos : 0 < used.length := List.length_pos_iff.mpr hne
  have hlen := hreads.remaining
  have hnonempty : cursor.rest ≠ [] := by
    intro hnil
    unfold Cursor.remaining at hlen
    rw [hnil, List.length_nil] at hlen
    omega
  have hmoved : next.offset ≠ cursor.offset := by
    have hoffset := hreads.offset
    omega
  cases rounds with
  | zero => omega
  | succ rounds =>
    rw [readToEnd_step field hnonempty hread hmoved, hrest rounds (by omega)]
    rfl

/-- The elements of an array up to the end that were written are read back, if none is empty. -/
theorem Rereads.toEnd (he : c.Rereads e) {element : Element} {items : List Value} {bytes : Bytes}
    (h : joinM (fun v => element.write e field v) items = .ok bytes)
    (hv : ∀ v ∈ items, ∀ r, v = Record.toValue r → c.Proper r)
    (hfree : ∀ ty, element = .struct ty → c.FillFree ty)
    (hne : ∀ v ∈ items, element.write e field v ≠ .ok []) {cursor last : Cursor}
    (hreads : cursor.Reads bytes last) (hend : last.rest = []) {rounds : Nat}
    (hrounds : cursor.remaining ≤ rounds) :
    readToEnd field (fun here => element.read c.decoder here) rounds cursor = .ok (items, last) := by
  induction items generalizing bytes cursor rounds with
  | nil =>
    cases h
    obtain rfl := hreads.eq_of_nil
    exact readToEnd_nil _ hend
  | cons v rest ih =>
    simp only [joinM, bind_eq_ok] at h
    obtain ⟨front, hfront, more, hmore, h⟩ := h
    cases h
    obtain ⟨next, hnext, hlast⟩ := hreads.split
    have hread := he.element hfront (hv v (by simp)) hfree hnext
    have hnonempty : front ≠ [] := by
      rintro rfl
      exact hne v (by simp) hfront
    refine readToEnd_cons hnext hnonempty hread (fun rounds hrounds => ?_) hrounds
    exact ih hmore (fun w hw => hv w (List.mem_cons_of_mem _ hw))
      (fun w hw => hne w (List.mem_cons_of_mem _ hw)) hlast hrounds

end Elements

/-! ## Regions -/

section Regions

variable {m : Nat} {field group : String} {layout : SizedArray}

/-- The header in front of some bytes is the same if more bytes follow. -/
theorem Sound.peekHeader_append (hc : c.Sound) {b : HeaderBinding}
    (hheader : c.schema.Delimited b.header) {bytes : Bytes} {key : Int × Option Nat}
    (h : c.decodeHeader b bytes = .ok key) (more : Bytes) :
    c.peekHeader c.decoder b (bytes ++ more) = .ok key := by
  obtain ⟨⟨r, last⟩, hr, hint⟩ := bind_eq_ok.mp h
  obtain ⟨used, hused, hsteady⟩ := hc.decoder_steady _ _ _ _ hr
  have hrest : bytes ++ more = used ++ (last.rest ++ more) := by
    rw [← List.append_assoc]
    exact congrArg (· ++ more) hused.rest
  have hreads : (Cursor.start (bytes ++ more)).Reads used
      { offset := used.length, rest := last.rest ++ more } :=
    Cursor.Reads.start_iff.mpr ⟨hrest, rfl⟩
  exact bind_eq_ok.mpr ⟨_, hsteady _ _ hreads (Or.inr hheader), hint⟩

/-- An element of a region is read as the struct that its header tells, with the bytes up to the
alignment behind it, and is not empty. -/
theorem Sound.readPolymorphic_of_header (hc : c.Sound)
    (hheader : c.schema.Delimited layout.binding.header) {bytes pad : Bytes}
    {key : Int × Option Nat} (hkey : c.decodeHeader layout.binding bytes = .ok key) {name : String}
    (hname : c.structOf group key = .ok name) {here mid next : Cursor} {x : Record}
    (hfirst : here.Reads bytes mid) (hread : c.decoder name here = .ok (x, mid))
    (hpad : mid.Reads pad next) (hlen : pad.length = padding mid.offset layout.align) :
    bytes ≠ [] ∧ c.readPolymorphic c.decoder layout group here = .ok (x.toValue, next) := by
  refine ⟨hc.ne_nil_of_decodeHeader hkey, ?_⟩
  have hpeek : c.peekHeader c.decoder layout.binding here.rest = .ok key := by
    rw [hfirst.rest]
    exact hc.peekHeader_append hheader hkey mid.rest
  have hskip : mid.skip (padding mid.offset layout.align) = .ok next :=
    map_eq_ok.mpr ⟨_, hlen ▸ Cursor.take_of_reads hpad, rfl⟩
  unfold readPolymorphic
  simp only [hpeek, ok_bind, hname, hread, hskip]

/-- An element of a region that was written is read back, with the zeros behind it. -/
theorem Sound.readPolymorphic_of_write (hc : c.Sound) (he : c.Rereads (c.encodeAt m)) {x : Record}
    (hproper : c.Proper x) {bytes : Bytes} (h : c.encodeAt m x.typeName [] x = .ok bytes)
    {key : Int × Option Nat} {bytes' : Bytes} (henc : c.encode x = .ok bytes')
    (hkey : c.decodeHeader layout.binding bytes' = .ok key)
    (hresolve : c.dispatch.resolve? group (key.2.getD 0) key.1 = some x.typeName)
    (hheader : c.FillFree layout.binding.header) (hfree : c.FillFree x.typeName) {here next : Cursor}
    (hreads : here.Reads (bytes ++ Bytes.zeros (padding (here.offset + bytes.length) layout.align))
      next) :
    bytes ≠ [] ∧ c.readPolymorphic c.decoder layout group here = .ok (x.toValue, next) := by
  obtain rfl : bytes' = bytes := c.encodeAt_unique henc h
  obtain ⟨mid, hfirst, hpad⟩ := hreads.split
  have hname : c.structOf group key = .ok x.typeName := structOf_eq_ok.mpr hresolve
  have hread := he x.typeName [] x _ hproper hfree h here mid hfirst
  exact hc.readPolymorphic_of_header hheader.delimited hkey hname hfirst hread hpad
    (by rw [Bytes.length_zeros, hfirst.offset])

/-- The elements of a region that were written are read back. -/
theorem Sound.region_of_write (hc : c.Sound) (he : c.Rereads (c.encodeAt m)) {items : List Value}
    (hitems : ∀ x : Record, x.toValue ∈ items → c.Proper x ∧ ∃ bytes key, c.encode x = .ok bytes ∧
      c.decodeHeader layout.binding bytes = .ok key ∧
      c.dispatch.resolve? group (key.2.getD 0) key.1 = some x.typeName ∧ c.FillFree x.typeName)
    (hheader : c.FillFree layout.binding.header) {bytes : Bytes} {cursor last : Cursor}
    (h : regionBytes (c.encodeAt m) field layout.align cursor.offset items = .ok bytes)
    (hreads : cursor.Reads bytes last) (hend : last.rest = []) {rounds : Nat}
    (hrounds : cursor.remaining ≤ rounds) :
    readToEnd field (c.readPolymorphic c.decoder layout group) rounds cursor =
      .ok (items, last) := by
  induction items generalizing bytes cursor rounds with
  | nil =>
    cases h
    obtain rfl := hreads.eq_of_nil
    exact readToEnd_nil _ hend
  | cons v rest ih =>
    simp only [regionBytes, bind_eq_ok] at h
    obtain ⟨x, hx, front, hfront, more, hmore, h⟩ := h
    cases h
    obtain rfl := asRecord_eq_ok.mp hx
    obtain ⟨hproper, bytes', key, henc, hkey, hresolve, hfree⟩ := hitems x (by simp)
    obtain ⟨next, hnext, hlast⟩ := hreads.split
    obtain ⟨hne, hread⟩ := hc.readPolymorphic_of_write he hproper hfront henc hkey hresolve hheader
      hfree hnext
    rw [← hnext.offset] at hmore
    refine readToEnd_cons hnext ?_ hread (fun rounds hrounds => ?_) hrounds
    · exact fun hnil => hne (List.append_eq_nil_iff.mp hnil).1
    · exact ih (fun y hy => hitems y (List.mem_cons_of_mem _ hy)) hmore hlast hrounds

end Regions

end Codec

end WireLayout
