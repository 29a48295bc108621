import Mathlib.Tactic.Ring
import WireLayout.Codec.Cursor
import WireLayout.Proofs.Outcome

/-!
# Values on the wire

A value that is no struct is written in a fixed number of bytes, is read back from them whatever
follows, and every run of so many bytes is that of a value. So reading and writing such a value are
inverse to each other.
-/

namespace WireLayout

/-! ## Bytes -/

namespace Bytes

@[simp] theorem length_ofNat (width n : Nat) : (ofNat width n).length = width := by
  induction width generalizing n with
  | zero => rfl
  | succ width ih => rw [ofNat, List.length_cons, ih]

@[simp] theorem length_zeros (count : Nat) : (zeros count).length = count := List.length_replicate

theorem span_succ (width : Nat) : span (width + 1) = 256 * span width := by
  change 256 ^ (width + 1) = 256 * 256 ^ width
  ring

theorem span_pos (width : Nat) : 0 < span width := Nat.pow_pos (by decide)

/-- Bytes denote a number below the number of such runs. -/
theorem toNat_lt (bs : Bytes) : toNat bs < span bs.length := by
  induction bs with
  | nil => exact span_pos 0
  | cons b bs ih =>
    have hb : b.toNat < 256 := UInt8.toNat_lt b
    rw [toNat, List.length_cons, span_succ]
    omega

theorem toNat_ofNat {width n : Nat} (h : n < span width) : toNat (ofNat width n) = n := by
  induction width generalizing n with
  | zero =>
    have : n < 1 := h
    rw [ofNat, toNat]
    omega
  | succ width ih =>
    rw [span_succ] at h
    rw [ofNat, toNat, ih (by omega), UInt8.toNat_ofNat']
    omega

theorem ofNat_toNat (bs : Bytes) : ofNat bs.length (toNat bs) = bs := by
  induction bs with
  | nil => rfl
  | cons b bs ih =>
    have hb : b.toNat < 256 := UInt8.toNat_lt b
    have hhead : UInt8.ofNat (b.toNat + 256 * toNat bs) = b := by
      apply UInt8.toNat_inj.mp
      rw [UInt8.toNat_ofNat']
      omega
    have htail : (b.toNat + 256 * toNat bs) / 256 = toNat bs := by omega
    rw [toNat, List.length_cons, ofNat, hhead, htail, ih]

theorem split?_eq_some {len : Nat} {bs front back : Bytes} :
    split? len bs = some (front, back) ↔ bs = front ++ back ∧ front.length = len := by
  induction len generalizing bs front with
  | zero =>
    rw [split?, Option.some.injEq, Prod.mk.injEq, List.length_eq_zero_iff]
    constructor
    · rintro ⟨rfl, rfl⟩; exact ⟨rfl, rfl⟩
    · rintro ⟨rfl, rfl⟩; exact ⟨rfl, rfl⟩
  | succ len ih =>
    cases bs with
    | nil =>
      rw [split?]
      constructor
      · rintro ⟨⟩
      · rintro ⟨h, hlen⟩
        rw [(List.append_eq_nil_iff.mp h.symm).1] at hlen
        cases hlen
    | cons b bs =>
      rw [split?]
      constructor
      · intro h
        split at h
        · rename_i front' back' heq
          cases h
          obtain ⟨rfl, hlen⟩ := ih.mp heq
          exact ⟨rfl, by rw [List.length_cons, hlen]⟩
        · cases h
      · rintro ⟨h, hlen⟩
        cases front with
        | nil => cases hlen
        | cons a front =>
          obtain ⟨rfl, hbs⟩ := List.cons.inj h
          rw [ih.mpr ⟨hbs, Nat.succ.inj hlen⟩]

theorem split?_eq_none {len : Nat} {bs : Bytes} : split? len bs = none ↔ bs.length < len := by
  constructor
  · intro h
    by_contra hle
    have hsplit : split? len bs = some (bs.take len, bs.drop len) :=
      split?_eq_some.mpr ⟨(List.take_append_drop len bs).symm, List.length_take_of_le (by omega)⟩
    rw [h] at hsplit
    cases hsplit
  · intro hlt
    cases h : split? len bs with
    | none => rfl
    | some p =>
      obtain ⟨rfl, hlen⟩ := split?_eq_some.mp h
      rw [List.length_append] at hlt
      omega

end Bytes

/-! ## Integers -/

namespace IntType

variable (t : IntType)

theorem two_mul_half : 2 * t.half = t.span := by
  obtain ⟨width, signedness⟩ := t
  cases width <;> cases signedness <;> decide

theorem half_pos : 0 < t.half := by
  obtain ⟨width, signedness⟩ := t
  cases width <;> cases signedness <;> decide

@[simp] theorem length_toBytes (v : Int) : (t.toBytes v).length = t.bytes := Bytes.length_ofNat _ _

theorem bytes_pos : 0 < t.bytes := by
  obtain ⟨width, signedness⟩ := t
  cases width <;> cases signedness <;> decide

theorem toNat_toBytes (v : Int) : (Bytes.toNat (t.toBytes v) : Int) = v % t.span := by
  have hpos : (0 : Int) < t.span := by have := t.half_pos; have := t.two_mul_half; omega
  have hlt := Int.emod_lt_of_pos v hpos
  have hge := Int.emod_nonneg v (Int.ne_of_gt hpos)
  rw [toBytes, Bytes.toNat_ofNat]
  · exact Int.toNat_of_nonneg hge
  · change (v % t.span).toNat < t.span
    omega

/-- A value of the type is read back from its bytes. -/
theorem ofBytes_toBytes {v : Int} (h : t.contains v = true) : t.ofBytes (t.toBytes v) = v := by
  have hn := t.toNat_toBytes v
  have hhalf := t.two_mul_half
  have hpos := t.half_pos
  simp only [contains, Bool.and_eq_true, decide_eq_true_eq] at h
  obtain ⟨hmin, hmax⟩ := h
  unfold ofBytes
  unfold IntType.min at hmin
  unfold IntType.max at hmax
  cases hs : t.signedness with
  | unsigned =>
    simp only [hs] at hmin hmax
    have hsigned : t.isSigned = false := by simp [isSigned, hs]
    simp only [hsigned, Bool.false_and, Bool.false_eq_true, if_false]
    rw [hn, Int.emod_eq_of_lt hmin (by omega)]
  | signed =>
    simp only [hs] at hmin hmax
    have hsigned : t.isSigned = true := by simp [isSigned, hs]
    simp only [hsigned, Bool.true_and, decide_eq_true_eq]
    by_cases hneg : v < 0
    · have hmod : v % t.span = v + t.span := by
        rw [← Int.add_emod_right, Int.emod_eq_of_lt (by omega) (by omega)]
      rw [if_pos (by omega)]
      omega
    · have hmod : v % t.span = v := Int.emod_eq_of_lt (by omega) (by omega)
      rw [if_neg (by omega)]
      omega

/-- The number that a signed or unsigned reading gives differs from the plain one by the number of
values, if at all. -/
theorem ofBytes_cases {chunk : Bytes} (h : chunk.length = t.bytes) :
    (Bytes.toNat chunk : Int) < t.span ∧ t.contains (t.ofBytes chunk) = true ∧
      t.ofBytes chunk % t.span = Bytes.toNat chunk := by
  have hlt : Bytes.toNat chunk < t.span := by
    have := Bytes.toNat_lt chunk
    rwa [h] at this
  have hhalf := t.two_mul_half
  have hpos := t.half_pos
  refine ⟨by omega, ?_⟩
  simp only [contains, Bool.and_eq_true, decide_eq_true_eq]
  unfold ofBytes IntType.min IntType.max
  cases hs : t.signedness with
  | unsigned =>
    have hsigned : t.isSigned = false := by simp [isSigned, hs]
    simp only [hsigned, Bool.false_and, Bool.false_eq_true, if_false]
    exact ⟨⟨by omega, by omega⟩, Int.emod_eq_of_lt (by omega) (by omega)⟩
  | signed =>
    have hsigned : t.isSigned = true := by simp [isSigned, hs]
    simp only [hsigned, Bool.true_and, decide_eq_true_eq]
    split
    · refine ⟨⟨by omega, by omega⟩, ?_⟩
      rw [Int.sub_emod_right, Int.emod_eq_of_lt (by omega) (by omega)]
    · exact ⟨⟨by omega, by omega⟩, Int.emod_eq_of_lt (by omega) (by omega)⟩

/-- What is read from bytes is a value of the type, and its bytes are these. -/
theorem toBytes_ofBytes {chunk : Bytes} (h : chunk.length = t.bytes) :
    t.contains (t.ofBytes chunk) = true ∧ t.toBytes (t.ofBytes chunk) = chunk := by
  obtain ⟨-, hcontains, hmod⟩ := t.ofBytes_cases h
  refine ⟨hcontains, ?_⟩
  rw [toBytes, hmod, Int.toNat_natCast, ← h, Bytes.ofNat_toNat]

/-- Every integer type has zero. -/
theorem contains_zero : t.contains 0 = true := by
  obtain ⟨width, signedness⟩ := t
  cases width <;> cases signedness <;> decide

/-- A value of an integer type fits the lengths of values. -/
theorem lt_sizeLimit_of_contains {v : Int} (h : t.contains v = true) : v < sizeLimit := by
  have hmax : t.max < sizeLimit := by
    obtain ⟨width, signedness⟩ := t
    cases width <;> cases signedness <;> decide
  simp only [contains, Bool.and_eq_true, decide_eq_true_eq] at h
  omega

theorem write_eq_ok {v : Int} {bytes : Bytes} :
    t.write v = .ok bytes ↔ t.contains v = true ∧ bytes = t.toBytes v := by
  unfold write
  split
  · rename_i h
    rw [Except.ok.injEq, eq_comm, h]
    simp
  · rename_i h
    simp [h]

theorem write_eq_error {v : Int} {e : CodecError} :
    t.write v = .error e ↔ t.contains v = false ∧ e = .outOfRange t.name v := by
  unfold write
  split
  · rename_i h
    simp [h]
  · rename_i h
    simp [h, eq_comm]

end IntType

/-! ## Cursors -/

namespace Cursor

theorem take_eq_ok {c c' : Cursor} {len : Nat} {front : Bytes} :
    c.take len = .ok (front, c') ↔
      c.rest = front ++ c'.rest ∧ front.length = len ∧ c'.offset = c.offset + len := by
  unfold take
  constructor
  · intro h
    split at h
    · rename_i front' back hsplit
      cases h
      obtain ⟨hrest, hlen⟩ := Bytes.split?_eq_some.mp hsplit
      exact ⟨hrest, hlen, rfl⟩
    · cases h
  · rintro ⟨hrest, hlen, hoff⟩
    rw [Bytes.split?_eq_some.mpr ⟨hrest, hlen⟩]
    obtain ⟨offset, rest⟩ := c'
    exact congrArg (fun o => Except.ok (front, Cursor.mk o rest)) hoff.symm

/-- A take fails exactly if it wants more bytes than are ahead. -/
theorem take_eq_error {c : Cursor} {len : Nat} {e : CodecError} :
    c.take len = .error e ↔ c.remaining < len ∧ e = .outOfBounds c.offset len := by
  unfold take remaining
  cases h : Bytes.split? len c.rest with
  | none => simp [Bytes.split?_eq_none.mp h, eq_comm]
  | some p =>
    have hle : ¬ c.rest.length < len := fun hlt => by simp [Bytes.split?_eq_none.mpr hlt] at h
    simp [hle]

end Cursor

/-- Bytes that are used by a read that goes from one cursor to another. -/
structure Cursor.Reads (c : Cursor) (used : Bytes) (c' : Cursor) : Prop where
  /-- They lie ahead of the first cursor, and behind them is what lies ahead of the second. -/
  rest : c.rest = used ++ c'.rest
  /-- The second cursor is as many bytes further. -/
  offset : c'.offset = c.offset + used.length

namespace Cursor.Reads

variable {c c' c'' : Cursor} {used used' : Bytes}

theorem refl (c : Cursor) : c.Reads [] c := ⟨rfl, rfl⟩

theorem trans (h : c.Reads used c') (h' : c'.Reads used' c'') : c.Reads (used ++ used') c'' where
  rest := by rw [h.rest, h'.rest, List.append_assoc]
  offset := by rw [h'.offset, h.offset, List.length_append, Nat.add_assoc]

/-- The bytes and the place decide where a read ends. -/
theorem unique (h : c.Reads used c') (h' : c.Reads used c'') : c' = c'' := by
  obtain ⟨offset', rest'⟩ := c'
  obtain ⟨offset'', rest''⟩ := c''
  have hrest : rest' = rest'' := List.append_cancel_left (h.rest.symm.trans h'.rest)
  have hoff : offset' = offset'' := h.offset.trans h'.offset.symm
  rw [hrest, hoff]

/-- A read from the start of a buffer takes its front, and ends behind it. -/
theorem start_iff {bytes : Bytes} :
    (Cursor.start bytes).Reads used c' ↔ bytes = used ++ c'.rest ∧ c'.offset = used.length := by
  constructor
  · intro h
    refine ⟨h.rest, ?_⟩
    rw [h.offset]
    exact Nat.zero_add _
  · rintro ⟨hrest, hoffset⟩
    refine ⟨hrest, ?_⟩
    rw [hoffset]
    exact (Nat.zero_add _).symm

theorem remaining (h : c.Reads used c') : c.remaining = used.length + c'.remaining := by
  unfold Cursor.remaining
  rw [h.rest, List.length_append]

theorem remaining_lt (h : c.Reads used c') (hmoved : c'.offset ≠ c.offset) :
    c'.remaining < c.remaining := by
  have hoffset := h.offset
  have hremaining := h.remaining
  omega

end Cursor.Reads

/-- A read of so many bytes succeeds where there are so many. -/
theorem Cursor.take_of_reads {c c' : Cursor} {used : Bytes} (h : c.Reads used c') :
    c.take used.length = .ok (used, c') := take_eq_ok.mpr ⟨h.rest, rfl, h.offset⟩

theorem Cursor.reads_of_take {c c' : Cursor} {len : Nat} {front : Bytes}
    (h : c.take len = .ok (front, c')) : c.Reads front c' ∧ front.length = len := by
  obtain ⟨hrest, rfl, hoff⟩ := take_eq_ok.mp h
  exact ⟨⟨hrest, hoff⟩, rfl⟩

/-! ## Leaves -/

namespace Leaf

variable {leaf : Leaf} {field : String}

/-- A value has as many bytes as its type. -/
theorem length_of_write {v : Value} {bytes : Bytes} (h : leaf.write field v = .ok bytes) :
    bytes.length = leaf.form.width := by
  unfold write at h
  split at h
  · rename_i t n hform
    rw [hform]
    rw [((t.write_eq_ok).mp h).2, t.length_toBytes]
    rfl
  · rename_i len bs hform
    rw [hform]
    split at h
    · rename_i hlen
      cases h
      exact hlen
    · cases h
  · cases h
  · cases h

/-- An integer is written as one of an integer type. -/
theorem form_of_write {n : Int} {bytes : Bytes} (h : leaf.write field (.int n) = .ok bytes) :
    ∃ t, leaf.form = .int t ∧ n < sizeLimit := by
  unfold write at h
  cases hform : leaf.form with
  | int t =>
    rw [hform] at h
    exact ⟨t, rfl, t.lt_sizeLimit_of_contains (t.write_eq_ok.mp h).1⟩
  | bytes len =>
    rw [hform] at h
    cases h

/-- What is written as an integer type is an integer. -/
theorem int_of_write {v : Value} {bytes : Bytes} (h : leaf.write field v = .ok bytes) {t : IntType}
    (hform : leaf.form = .int t) :
    ∃ n, v = .int n ∧ n < sizeLimit := by
  cases v with
  | int n => exact ⟨n, rfl, (form_of_write h).choose_spec.2⟩
  | _ => unfold write at h; rw [hform] at h; cases h

/-- A value that was written is read back, whatever follows. -/
theorem read_of_write {v : Value} {bytes : Bytes} (h : leaf.write field v = .ok bytes)
    {c c' : Cursor} (hc : c.Reads bytes c') : leaf.read c = .ok (v, c') := by
  have hlen := length_of_write h
  have htake := Cursor.take_of_reads hc
  rw [hlen] at htake
  unfold read
  unfold write at h
  split at h
  · rename_i t n hform
    rw [hform] at htake ⊢
    obtain ⟨hcontains, rfl⟩ := t.write_eq_ok.mp h
    change c.take t.bytes = _ at htake
    simp only [Cursor.takeInt, htake, ok_map, t.ofBytes_toBytes hcontains]
  · rename_i len bs hform
    rw [hform] at htake ⊢
    split at h
    · cases h
      change c.take len = _ at htake
      simp only [htake, ok_map]
    · cases h
  · cases h
  · cases h

/-- What was read is written as the bytes that it was read from. -/
theorem write_of_read {c c' : Cursor} {v : Value} (h : leaf.read c = .ok (v, c')) (field : String) :
    ∃ bytes, leaf.write field v = .ok bytes ∧ c.Reads bytes c' := by
  unfold read at h
  unfold write
  split at h
  · rename_i t hform
    obtain ⟨⟨n, c''⟩, hint, h⟩ := map_eq_ok.mp h
    cases h
    obtain ⟨⟨front, c''⟩, htake, hint⟩ := map_eq_ok.mp hint
    cases hint
    obtain ⟨hreads, hlen⟩ := Cursor.reads_of_take htake
    obtain ⟨hcontains, hbytes⟩ := t.toBytes_ofBytes hlen
    refine ⟨front, ?_, hreads⟩
    rw [hform]
    exact t.write_eq_ok.mpr ⟨hcontains, hbytes.symm⟩
  · rename_i len hform
    obtain ⟨⟨front, c''⟩, htake, h⟩ := map_eq_ok.mp h
    cases h
    obtain ⟨hreads, hlen⟩ := Cursor.reads_of_take htake
    refine ⟨front, ?_, hreads⟩
    rw [hform]
    simp [hlen]

/-- The integer of a leaf is its value. -/
theorem readInt_eq_ok {c c' : Cursor} {n : Int} (t : IntType) (ht : leaf.form = .int t) :
    leaf.readInt field c = .ok (n, c') ↔ leaf.read c = .ok (.int n, c') := by
  unfold readInt read
  rw [ht]
  simp only
  cases c.takeInt t with
  | error e => simp [Except.map]
  | ok p =>
    obtain ⟨m, c''⟩ := p
    simp

end Leaf

end WireLayout
