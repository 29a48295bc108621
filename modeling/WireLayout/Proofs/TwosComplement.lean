import Mathlib.Data.Nat.Bitwise
import WireLayout.Proofs.Wire

/-!
# Two's complement

An integer is written as the low bytes of its sixteen bytes in two's complement, and read by filling
its bytes up to sixteen again with the sign in the last one. On the values of a type the two are
inverse to each other: they and the runs of as many bytes as the type takes correspond one to one.
-/

namespace WireLayout

/-! ## Runs of bytes -/

namespace Bytes

theorem span_add (a b : Nat) : span (a + b) = span a * span b := Nat.pow_add 256 a b

theorem toNat_append (front back : Bytes) :
    toNat (front ++ back) = toNat front + span front.length * toNat back := by
  induction front with
  | nil =>
    rw [List.nil_append, toNat, List.length_nil, show span 0 = 1 from rfl]
    omega
  | cons b front ih =>
    rw [List.cons_append, toNat, ih, toNat, List.length_cons, span_succ]
    ring

theorem toNat_zeros (count : Nat) : toNat (zeros count) = 0 := by
  induction count with
  | zero => rfl
  | succ count ih =>
    change UInt8.toNat 0 + 256 * toNat (zeros count) = 0
    rw [ih]
    rfl

/-- A run of bytes, each of which is all ones. -/
def ones (count : Nat) : Bytes := List.replicate count 0xff

@[simp] theorem length_ones (count : Nat) : (ones count).length = count := List.length_replicate

theorem toNat_ones (count : Nat) : toNat (ones count) + 1 = span count := by
  induction count with
  | zero => rfl
  | succ count ih =>
    change 255 + 256 * toNat (ones count) + 1 = span (count + 1)
    rw [span_succ, ← ih]
    ring

theorem take_ofNat {width more : Nat} (h : width ≤ more) (n : Nat) :
    (ofNat more n).take width = ofNat width n := by
  induction width generalizing more n with
  | zero => rfl
  | succ width ih =>
    cases more with
    | zero => omega
    | succ more => rw [ofNat, List.take_succ_cons, ih (by omega), ofNat]

/-- The low bytes of a number are those of its remainder. -/
theorem ofNat_mod_span (width n : Nat) : ofNat width (n % span width) = ofNat width n := by
  induction width generalizing n with
  | zero => rfl
  | succ width ih =>
    have hhead : UInt8.ofNat (n % (256 * span width)) = UInt8.ofNat n := by
      apply UInt8.toNat_inj.mp
      rw [UInt8.toNat_ofNat', UInt8.toNat_ofNat']
      exact Nat.mod_mul_right_mod n 256 (span width)
    rw [ofNat, ofNat, span_succ, hhead, Nat.mod_mul_right_div_self, ih]

theorem top_bit_iff (b : UInt8) : b &&& 0x80 ≠ 0 ↔ 128 ≤ b.toNat := by
  have hb : b.toNat < 256 := UInt8.toNat_lt b
  have hand : (b &&& 0x80).toNat = b.toNat / 2 ^ 7 % 2 * 2 ^ 7 := by
    rw [UInt8.toNat_and, show UInt8.toNat 0x80 = 2 ^ 7 from rfl, Nat.and_two_pow, Nat.toNat_testBit]
  rw [ne_eq, ← UInt8.toNat_inj, hand, show UInt8.toNat 0 = 0 from rfl]
  omega

/-! ## Two's complement of a width -/

/-- The bytes of an integer in two's complement, least significant first. -/
def ofInt (width : Nat) (v : Int) : Bytes := ofNat width (v % span width).toNat

/-- The integer that bytes denote in two's complement. -/
def toInt (bs : Bytes) : Int :=
  if 2 * toNat bs < span bs.length then toNat bs else toNat bs - span bs.length

/-- A narrower form of an integer is the front of a wider one. -/
theorem take_ofInt {width more : Nat} (h : width ≤ more) (v : Int) :
    (ofInt more v).take width = ofInt width v := by
  obtain ⟨extra, rfl⟩ := Nat.exists_eq_add_of_le h
  have hspan := span_pos width
  have hmore := span_pos (width + extra)
  have hdvd : (span width : Int) ∣ span (width + extra) := by
    rw [span_add, Nat.cast_mul]
    exact Int.dvd_mul_right _ _
  have hmod : (v % span (width + extra)).toNat % span width = (v % span width).toNat := by
    apply Int.ofNat_inj.mp
    rw [Int.natCast_emod, Int.toNat_of_nonneg (Int.emod_nonneg v (by omega)),
      Int.toNat_of_nonneg (Int.emod_nonneg v (by omega)), Int.emod_emod_of_dvd v hdvd]
  unfold ofInt
  rw [take_ofNat h, ← ofNat_mod_span, hmod]

/-- Zeros behind bytes leave the number that they denote. -/
theorem toInt_append_zeros (bs : Bytes) (count : Nat) :
    toInt (bs ++ zeros (count + 1)) = toNat bs := by
  have hlt := toNat_lt bs
  have hle : span bs.length * 1 ≤ span bs.length * span count :=
    Nat.mul_le_mul_left _ (span_pos count)
  unfold toInt
  rw [toNat_append, toNat_zeros, Nat.mul_zero, Nat.add_zero, List.length_append, length_zeros,
    span_add, span_succ, Nat.mul_left_comm, if_pos (by omega)]

/-- Ones behind bytes make the number that they denote a negative one. -/
theorem toInt_append_ones (bs : Bytes) (count : Nat) :
    toInt (bs ++ ones (count + 1)) = toNat bs - span bs.length := by
  have hle : span bs.length * 1 ≤ span bs.length * span count :=
    Nat.mul_le_mul_left _ (span_pos count)
  have htotal : toNat (bs ++ ones (count + 1)) + span bs.length =
      toNat bs + 256 * (span bs.length * span count) := by
    have hones := toNat_ones (count + 1)
    rw [span_succ] at hones
    rw [toNat_append, Nat.add_assoc, ← Nat.mul_succ, Nat.succ_eq_add_one, hones, Nat.mul_left_comm]
  unfold toInt
  rw [List.length_append, length_ones, span_add, span_succ, Nat.mul_left_comm, if_neg (by omega)]
  omega

end Bytes

/-! ## The sign of a chunk -/

namespace IntType

variable (t : IntType)

/-- What fills a chunk up: in a signed type, ones where the highest bit of the last byte is set. -/
def filling (chunk : Bytes) (count : Nat) : Bytes :=
  if t.isSigned && chunk.getLast?.any (fun b => b &&& 0x80 != 0) then Bytes.ones count
  else Bytes.zeros count

/-- The sixteen bytes of the integer in a chunk. -/
def widen (chunk : Bytes) : Bytes := chunk ++ t.filling chunk (16 - chunk.length)

theorem bytes_le : t.bytes ≤ 8 := by
  obtain ⟨width, signedness⟩ := t
  cases width <;> cases signedness <;> decide

/-- The highest bit of the last byte is set in the upper half of the numbers. -/
theorem half_le_toNat_iff {front : Bytes} {b : UInt8} (h : (front ++ [b]).length = t.bytes) :
    t.half ≤ Bytes.toNat (front ++ [b]) ↔ b &&& 0x80 ≠ 0 := by
  have hfront := Bytes.toNat_lt front
  have hspan : t.span = 256 * Bytes.span front.length := by
    rw [← Bytes.span_succ, ← List.length_concat, List.concat_eq_append, h]
    rfl
  have hhalf := t.two_mul_half
  rw [Bytes.top_bit_iff, Bytes.toNat_append, show Bytes.toNat [b] = b.toNat from Nat.add_zero _]
  constructor
  · intro hle
    by_contra hlt
    have hmul : Bytes.span front.length * b.toNat ≤ Bytes.span front.length * 127 :=
      Nat.mul_le_mul_left _ (by omega)
    omega
  · intro hle
    have hmul : Bytes.span front.length * 128 ≤ Bytes.span front.length * b.toNat :=
      Nat.mul_le_mul_left _ hle
    omega

/-- What is read from a chunk is the integer of its sixteen bytes. -/
theorem toInt_widen {chunk : Bytes} (h : chunk.length = t.bytes) :
    Bytes.toInt (t.widen chunk) = t.ofBytes chunk := by
  have hpos := t.bytes_pos
  have hle := t.bytes_le
  obtain ⟨front, b, rfl⟩ : ∃ front b, chunk = front ++ [b] :=
    ⟨_, _, (List.dropLast_append_getLast (List.ne_nil_of_length_pos (by omega))).symm⟩
  have hsign : (front ++ [b]).getLast?.any (fun b => b &&& 0x80 != 0) =
      decide (t.half ≤ Bytes.toNat (front ++ [b])) := by
    rw [List.getLast?_concat, Option.any_some, Bool.eq_iff_iff, bne_iff_ne, decide_eq_true_iff,
      t.half_le_toNat_iff h]
  obtain ⟨count, hcount⟩ : ∃ count, 16 - (front ++ [b]).length = count + 1 :=
    ⟨15 - t.bytes, by omega⟩
  have hvalue : t.ofBytes (front ++ [b]) =
      if t.isSigned && decide (t.half ≤ Bytes.toNat (front ++ [b])) then
        (Bytes.toNat (front ++ [b]) : Int) - t.span
      else Bytes.toNat (front ++ [b]) := rfl
  unfold widen filling
  rw [hvalue, hsign, hcount]
  cases t.isSigned && decide (t.half ≤ Bytes.toNat (front ++ [b])) with
  | true =>
    rw [if_pos rfl, if_pos rfl, Bytes.toInt_append_ones, h]
    rfl
  | false => rw [if_neg Bool.false_ne_true, if_neg Bool.false_ne_true, Bytes.toInt_append_zeros]

end IntType

/-! ## Writers -/

/-- What has been written so far. -/
structure Writer where
  /-- The bytes. -/
  bytes : Bytes

namespace Writer

/-- Writes the low bytes of the sixteen of an integer behind the others, if its type has it. -/
def writeInt (w : Writer) (t : IntType) (v : Int) : Except CodecError Unit × Writer :=
  if t.contains v then (.ok (), { bytes := w.bytes ++ (Bytes.ofInt 16 v).take t.bytes })
  else (.error (.outOfRange t.name v), w)

/-- Puts what an operation gives behind what was written, if it gives bytes. -/
def put (w : Writer) : Except CodecError Bytes → Except CodecError Unit × Writer
  | .ok bytes => (.ok (), { bytes := w.bytes ++ bytes })
  | .error e => (.error e, w)

/-- The bytes that an integer type has for a value are what a writer takes. -/
theorem writeInt_eq_put (w : Writer) (t : IntType) (v : Int) :
    w.writeInt t v = w.put (t.write v) := by
  have hle := t.bytes_le
  unfold writeInt IntType.write
  split
  · rw [Bytes.take_ofInt (by omega)]
    rfl
  · rfl

end Writer

/-- A chunk is read as the value that it is of, whatever follows it. -/
theorem Cursor.takeInt_append {t : IntType} {chunk : Bytes} (h : chunk.length = t.bytes)
    (offset : Nat) (suffix : Bytes) :
    Cursor.takeInt ⟨offset, chunk ++ suffix⟩ t =
      .ok (t.ofBytes chunk, ⟨offset + t.bytes, suffix⟩) := by
  have htake : Cursor.take ⟨offset, chunk ++ suffix⟩ t.bytes =
      .ok (chunk, ⟨offset + t.bytes, suffix⟩) := take_eq_ok.mpr ⟨rfl, h, rfl⟩
  rw [takeInt, htake, ok_map]

/-- Integers of a type and runs of as many bytes as it takes correspond one to one. A writer takes
an integer exactly if the type has it, appends as many bytes as the type takes, and is left as it
was otherwise; from these bytes the integer is read back, whatever follows. Every run of so many
bytes is read as an integer that the type has, the one of the sixteen bytes that the sign fills it up
to, and is what is written for this integer. -/
theorem integers_correspond (t : IntType) :
    (∀ (w : Writer) (v : Int), w.writeInt t v = w.put (t.write v) ∧
      ((w.writeInt t v).1 = .ok () ↔ t.contains v = true) ∧
      (∀ e, (w.writeInt t v).1 = .error e → e = .outOfRange t.name v ∧ (w.writeInt t v).2 = w) ∧
      ((w.writeInt t v).1 = .ok () → ∃ chunk,
        (w.writeInt t v).2.bytes = w.bytes ++ chunk ∧ chunk.length = t.bytes ∧
          ∀ offset suffix, Cursor.takeInt ⟨offset, chunk ++ suffix⟩ t =
            .ok (v, ⟨offset + t.bytes, suffix⟩))) ∧
    ∀ chunk : Bytes, chunk.length = t.bytes → ∃ v, t.contains v = true ∧
      v = Bytes.toInt (t.widen chunk) ∧
      (∀ offset suffix, Cursor.takeInt ⟨offset, chunk ++ suffix⟩ t =
        .ok (v, ⟨offset + t.bytes, suffix⟩)) ∧
      ∀ w : Writer, w.writeInt t v = (.ok (), ⟨w.bytes ++ chunk⟩) := by
  refine ⟨fun w v => ⟨w.writeInt_eq_put t v, ?_⟩, fun chunk hlen => ?_⟩
  · rw [w.writeInt_eq_put]
    cases hwrite : t.write v with
    | error e =>
      obtain ⟨hcontains, rfl⟩ := t.write_eq_error.mp hwrite
      refine ⟨?_, ?_, ?_⟩
      · simp [Writer.put, hcontains]
      · rintro _ ⟨⟩
        exact ⟨rfl, rfl⟩
      · rintro ⟨⟩
    | ok chunk =>
      obtain ⟨hcontains, rfl⟩ := t.write_eq_ok.mp hwrite
      refine ⟨⟨fun _ => hcontains, fun _ => rfl⟩, ?_, fun _ => ?_⟩
      · rintro _ ⟨⟩
      · refine ⟨t.toBytes v, rfl, t.length_toBytes v, fun offset suffix => ?_⟩
        rw [Cursor.takeInt_append (t.length_toBytes v), t.ofBytes_toBytes hcontains]
  · obtain ⟨hcontains, hbytes⟩ := t.toBytes_ofBytes hlen
    refine ⟨t.ofBytes chunk, hcontains, (t.toInt_widen hlen).symm,
      Cursor.takeInt_append hlen, fun w => ?_⟩
    rw [w.writeInt_eq_put, t.write_eq_ok.mpr ⟨hcontains, hbytes.symm⟩]
    rfl

/-- The bytes `fe ff` are minus two as a signed integer of two bytes. -/
theorem integers_correspond_minusTwo :
    let t : IntType := ⟨.two, .signed⟩
    ([0xfe, 0xff] : Bytes).length = t.bytes ∧ Bytes.toInt (t.widen [0xfe, 0xff]) = -2 ∧
      (∀ offset suffix, Cursor.takeInt ⟨offset, [0xfe, 0xff] ++ suffix⟩ t =
        .ok (-2, ⟨offset + 2, suffix⟩)) ∧
      ∀ w : Writer, w.writeInt t (-2) = (.ok (), ⟨w.bytes ++ [0xfe, 0xff]⟩) := by
  intro t
  have hvalue : Bytes.toInt (t.widen [0xfe, 0xff]) = -2 := by decide
  obtain ⟨v, -, hv, hread, hwrite⟩ := (integers_correspond t).2 [0xfe, 0xff] rfl
  obtain rfl : v = -2 := hv.trans hvalue
  exact ⟨rfl, hvalue, hread, hwrite⟩

end WireLayout
