import Mathlib.Data.List.Find
import WireLayout.Proofs.Promises
import WireLayout.Proofs.Rewriting

/-!
# Writing what was read

A record that was read is written again, in as many bytes as it was read from. What the record lacks
is computed from it: the numbers of elements, and the sizes that reserved fields promise.
-/

namespace WireLayout

namespace Codec

variable {c : Codec} {same : Prop}

section Places

variable {d : Decoder} {s : Struct} {plan : Plan} {slots : List UnionSlot}
  {entries : List (Option WireEntry)} {st mid : Nat → Progress}
  (hr : c.Ran d s plan slots entries st mid) {name : String} (hl : c.lookup name = .ok (s, plan))
  (hkeeps : c.Keeps name (st entries.length)) (hrecounts : s.RecountsAll (st entries.length))
  (hs : s ∈ c.schema.structs) (hsame : same → c.schema.Exact ∧ c.schema.CountsPresent)

include hr hl hkeeps hrecounts

/-- A size that a reserved field promised is that of its target in the finished record. -/
theorem Ran.promised (hc : c.Sound)
    (hsettled : c.schema.PromisesSettled) {i : Nat} {f : Field} (hi : s.fields[i]? = some f)
    {target : String} (htarget : f.sizeOfTarget? = some target) (hunion : s.unionOf? f.name = none)
    (hholds : (st i).holds s.name f.condition = .ok true) {found : Int}
    (hfound : (mid i).scratch.lookup f.name = some found) (initial : List Initializer) :
    ∃ n : Nat, (n : Int) = found ∧ (Frame.mk s plan (st entries.length).record initial).fieldSize
      c.schema c.measure target = .ok n := by
  have hf := List.mem_of_getElem? hi
  have hilt : i < entries.length := hr.planned.length ▸ (List.getElem?_eq_some_iff.mp hi).1
  have hstep : f.checkStep target ∈ s.checksAt slots (max i (s.targetReady slots target i)) :=
    Struct.mem_checksAt hi htarget
  obtain ⟨_, _, target', -, -, -, hready, heq⟩ := Struct.exists_of_mem_checksAt hstep
  obtain ⟨-, rfl⟩ := DecodeOp.checkSizeOf.inj (congrArg Step.op heq)
  have hplace : max i (s.targetReady slots target i) < entries.length :=
    Nat.max_lt.mpr ⟨hilt, hr.planned.targetReady_lt hilt target⟩
  have hle : i ≤ max i (s.targetReady slots target i) := Nat.le_max_left _ _
  generalize max i (s.targetReady slots target i) = place at hstep hready hplace hle
  have hcheck := hr.check place hplace _ hstep
  obtain ⟨b, hb, hcheck⟩ := bind_eq_ok.mp hcheck
  -- the size was compared, since the condition is decided as it was in the place of the field
  have hcond := hrecounts f hf (by
    simp [Field.isConst, Field.disposition_of_sizeOfTarget? htarget, Disposition.role])
  have hagain := hr.holds (Frame.mk s plan (st entries.length).record initial) rfl rfl hf hcond
    (Nat.succ_le_of_lt hplace) hb c.measure
  rw [hr.holds (Frame.mk s plan (st entries.length).record initial) rfl rfl hf hcond
    (Nat.le_of_lt hilt) hholds c.measure] at hagain
  cases hagain
  simp only [if_true, Field.checkStep, Codec.readOp, bind_eq_ok] at hcheck
  obtain ⟨found', hfound', size, hsize, u, hequal, -⟩ := hcheck
  have hequal' := eq_of_checkReserved hequal
  have hown := hr.planned.ready_of_own hr.wellFormed hi hunion
  have hlater : (st (place + 1)).Agree f.name (st entries.length) :=
    hr.agree_final hplace (by omega)
  have hlookup := noted_eq_ok.mp hfound'
  rw [← hlater.scratch, (hr.agree_own hi hunion).scratch, hfound] at hlookup
  refine ⟨size, by rw [hequal', Option.some.inj hlookup], ?_⟩
  rw [← hsize]
  refine hc.fieldSize_eq hsettled (hkeeps.typeName.symm ▸ hl) hr.planned
    (hr.complete hl hkeeps hrecounts) (fun x hx => ?_) hf htarget hready [] initial
  have hx : (st (place + 1)).Agree x (st entries.length) :=
    hr.agree_final hplace (Nat.lt_succ_of_le hx)
  exact hx.record.symm

omit hl hkeeps hrecounts in
include hs hsame in
/-- A value that is no struct is written in bytes that stand for those that it was read from: a number
of elements is the one that was read, or zero. -/
theorem Ran.leafBytes {i : Nat} {f : Field} (hi : s.fields[i]? = some f)
    (hunion : s.unionOf? f.name = none) {leaf : Leaf}
    (hform : c.schema.types.form? f.typeName = some leaf.form) {role : Role}
    {guard : Option Condition} (hread : c.readOp d s plan f.name (st i)
      (WireEntry.decodeOp s { field := f.name, role, guard, shape := .leaf leaf }) = .ok (mid i))
    (initial : List Initializer) (e : Encoder) :
    ∃ used bytes, (st i).cursor.Reads used (mid i).cursor ∧
      (Frame.mk s plan (st entries.length).record initial).opBytes c.schema c.measure e f.name
        (WireEntry.encodeOp s { field := f.name, role, guard, shape := .leaf leaf }) =
          .ok bytes ∧
      Bytes.Alike same bytes used := by
  have hwell := hr.wellFormed
  have hf := List.mem_of_getElem? hi
  have hagree := hr.agree_own hi hunion
  cases hcount : s.isCount f.name with
  | true =>
    have ht := hwell.testable_of_isCount hf hcount
    obtain ⟨t, hint⟩ := ht.2
    rw [TypeTable.form?_of_intType? hint] at hform
    simp only [WireEntry.decodeOp, hcount, if_true, Codec.readOp, bind_eq_ok] at hread
    obtain ⟨⟨n, cursor⟩, hn, hmid⟩ := hread
    rw [Leaf.readInt_eq_ok t (Option.some.inj hform).symm] at hn
    obtain ⟨bytes, hbytes, hreads⟩ := Leaf.write_of_read hn f.name
    have hmid := (Except.ok.inj hmid).symm
    have hfinal : (st entries.length).scratch.lookup f.name = some n := by
      rw [hagree.scratch, hmid]
      exact (Ordered.lookup_cons _ _ _).trans (if_pos rfl)
    obtain ⟨k, hk, hkn⟩ :=
      hr.liveLength (Frame.mk s plan (st entries.length).record initial) rfl hfinal
    simp only [WireEntry.encodeOp, hcount, if_true, Frame.opBytes, bind_eq_ok]
    rcases hkn with rfl | ⟨rfl, habsent⟩
    · exact ⟨bytes, bytes, by rw [hmid]; exact hreads, ⟨k, hk, hbytes⟩, .refl bytes⟩
    -- no array is there, and zero is written
    have hzero : leaf.write f.name (.int 0) = .ok (t.toBytes 0) := by
      unfold Leaf.write
      rw [← Option.some.inj hform]
      exact t.write_eq_ok.mpr ⟨t.contains_zero, rfl⟩
    refine ⟨bytes, t.toBytes 0, by rw [hmid]; exact hreads, ⟨0, hk, hzero⟩, ?_, fun h => ?_⟩
    · rw [Leaf.length_of_write hzero, Leaf.length_of_write hbytes]
    · obtain ⟨a, ha, hsome⟩ :=
        hr.isSome_of_anchored (Struct.anchored_of_unconditioned ((hsame h).2 s hs) _) hcount
      rw [habsent a ha] at hsome
      cases hsome
  | false =>
    simp only [WireEntry.decodeOp, hcount, Bool.false_eq_true, if_false, Codec.readOp,
      bind_eq_ok] at hread
    obtain ⟨⟨v, cursor⟩, hv, hmid⟩ := hread
    obtain ⟨bytes, hbytes, hreads⟩ := Leaf.write_of_read hv f.name
    have hmid := (Except.ok.inj hmid).symm
    have hget := hr.get?_of_store hi hunion hmid.symm
    refine ⟨bytes, bytes, by rw [hmid]; exact hreads, ?_, .refl bytes⟩
    simp only [WireEntry.encodeOp, hcount, Bool.false_eq_true, if_false]
    cases hregion : (s.regionsMeasuredBy f.name).getLast? with
    | none =>
      simp only [Frame.opBytes, Frame.value, hget, ok_bind]
      exact hbytes
    | some region =>
      -- a field that measures a region is an integer
      obtain ⟨array, align⟩ := region
      obtain ⟨a, ha, layout, hlayout, hlength, -⟩ :=
        Struct.mem_regionsMeasuredBy.mp (List.mem_of_getLast? hregion)
      obtain ⟨k, hk⟩ := List.mem_iff_getElem?.mp ha
      obtain ⟨j, g, -, hg, hname, hplain, hnum⟩ :=
        hwell.counted k a hk _ (Field.lengthName?_of_sizedArray? hlayout)
      obtain rfl := List.inj_on_of_nodup_map hwell.names (List.mem_of_getElem? hg) hf
        (hname.trans hlength)
      obtain ⟨n, -, hint⟩ := hr.int_of_testable hi ⟨hplain, TypeTable.intType_of_isNumber hnum⟩
      have hvn : v = .int n := by
        have := hint hcount
        rw [hget] at this
        exact Option.some.inj this
      simp only [Frame.opBytes, Frame.byteLength, hget, asInt_eq_ok.mpr hvn, ok_bind]
      rw [← hvn]
      exact hbytes

/-- A reserved value is written in the bytes that it was read from. -/
theorem Ran.reservedBytes (hc : c.Sound)
    (hsettled : c.schema.PromisesSettled) {i : Nat} {f : Field} (hi : s.fields[i]? = some f)
    (hunion : s.unionOf? f.name = none) {value : ReservedValue}
    (hd : f.disposition = .reserved value) {leaf : Leaf}
    (hform : c.schema.types.form? f.typeName = some leaf.form)
    (hholds : (st i).holds s.name f.condition = .ok true)
    (hread : c.readOp d s plan f.name (st i) (.reserved leaf value.fixed?) = .ok (mid i))
    (initial : List Initializer) (e : Encoder) :
    ∃ bytes, (st i).cursor.Reads bytes (mid i).cursor ∧
      (Frame.mk s plan (st entries.length).record initial).opBytes c.schema c.measure e f.name
        (.reserved leaf value) = .ok bytes := by
  have htyped := hr.wellFormed.typed f (List.mem_of_getElem? hi)
  unfold Field.Typed at htyped
  rw [hd] at htyped
  obtain ⟨t, hint⟩ := htyped
  rw [TypeTable.form?_of_intType? hint] at hform
  obtain ⟨⟨found, cursor⟩, hfound, hread⟩ := bind_eq_ok.mp hread
  rw [Leaf.readInt_eq_ok t (Option.some.inj hform).symm] at hfound
  obtain ⟨bytes, hbytes, hreads⟩ := Leaf.write_of_read hfound f.name
  have hfixed : ∀ expected, value.fixed? = some expected →
      expected = found ∧ mid i = ((st i).note f.name found).moveTo cursor := by
    intro expected hexpected
    rw [hexpected] at hread
    obtain ⟨u, hequal, hmid⟩ := bind_eq_ok.mp hread
    exact ⟨eq_of_checkReserved hequal, (Except.ok.inj hmid).symm⟩
  cases hvalue : value with
  | int v =>
    obtain ⟨rfl, hmid⟩ := hfixed v (by rw [hvalue]; rfl)
    exact ⟨bytes, by rw [hmid]; exact hreads, hbytes⟩
  | member text v =>
    obtain ⟨rfl, hmid⟩ := hfixed v (by rw [hvalue]; rfl)
    exact ⟨bytes, by rw [hmid]; exact hreads, hbytes⟩
  | sizeOf target =>
    rw [hvalue] at hread hd
    have hmid : mid i = ((st i).note f.name found).moveTo cursor := (Except.ok.inj hread).symm
    refine ⟨bytes, by rw [hmid]; exact hreads, ?_⟩
    have htarget : f.sizeOfTarget? = some target := by unfold Field.sizeOfTarget?; rw [hd]
    have hlookup : (mid i).scratch.lookup f.name = some found := by
      rw [hmid]
      exact (Ordered.lookup_cons _ _ _).trans (if_pos rfl)
    obtain ⟨n, hn, hsize⟩ := hr.promised hl hkeeps hrecounts hc hsettled hi htarget hunion
      hholds hlookup initial
    simp only [Frame.opBytes, Frame.reservedInt, hsize, ok_map, ok_bind]
    rw [← hbytes, ← hn]
    rfl

omit hl hkeeps hrecounts in
/-- The length field of a region that was read holds its length, unless it counts elements. -/
theorem Ran.region_length {i : Nat} {f : Field} (hi : s.fields[i]? = some f) {layout : SizedArray}
    (hlayout : f.sizedArray? = some layout) {n : Int}
    (hn : (st i).scratch.lookup layout.lengthField = some n) :
    ((st entries.length).record.get? layout.lengthField).bind Value.int? = none ∨
      ((st entries.length).record.get? layout.lengthField).bind Value.int? = some n := by
  obtain ⟨j, g, hg, hname, ht, hfinal⟩ :=
    hr.lookup_length hi (Field.lengthName?_of_sizedArray? hlayout) hn
  rw [← hname] at hfinal ⊢
  cases hcount : s.isCount g.name with
  | true => exact Or.inl (by rw [hr.get?_of_isCount hg hcount]; rfl)
  | false =>
    obtain ⟨v, hv, hget⟩ := hr.int_of_testable hg ht
    obtain rfl := Option.some.inj (hfinal.symm.trans hv)
    exact Or.inr (by rw [hget hcount]; rfl)

include hs hsame

omit hl hkeeps hrecounts in
/-- A region is written in bytes that stand for those that it was read from, and are as many as the
length field says, where the record has it. -/
theorem Ran.rewritesRegion (hd : c.Rewrites same d) {m : Nat}
    (hdepth : (st entries.length).record.depth ≤ m + 1) (initial : List Initializer) {i : Nat}
    {f : Field} (hi : s.fields[i]? = some f) (hunion : s.unionOf? f.name = none)
    {layout : SizedArray} (hlayout : f.sizedArray? = some layout) {group : String}
    (hread : c.readOp d s plan f.name (st i) (.arraySized layout group) = .ok (mid i)) :
    ∃ used bytes, (st i).cursor.Reads used (mid i).cursor ∧
      (Frame.mk s plan (st entries.length).record initial).opBytes c.schema c.measure
        (c.encodeAt m) f.name (.arraySized layout.lengthField layout.align) = .ok bytes ∧
      Bytes.Alike same bytes used := by
  simp only [Codec.readOp, bind_eq_ok] at hread
  obtain ⟨n, hn, len, hlen, ⟨region, cursor⟩, hregion, ⟨items, last⟩, hitems, hmid⟩ := hread
  have hmid := Except.ok.inj hmid
  have hget := hr.get?_of_store hi hunion hmid
  have hlist : (Frame.mk s plan (st entries.length).record initial).list f.name = .ok items :=
    Frame.list_eq_ok.mpr hget
  obtain ⟨⟨front, next⟩, htake, hregion⟩ := map_eq_ok.mp hregion
  cases hregion
  obtain ⟨hreads, hfront⟩ := Cursor.reads_of_take htake
  obtain ⟨hitems, hend⟩ := readsItems_of_readToEnd hitems
  obtain ⟨used, hused, hwritten⟩ :=
    hd.region (fun h => ((hsame h).1 s hs).2 f (List.mem_of_getElem? hi) layout hlayout) hitems
  obtain rfl : front = used := by
    have hrest := hused.rest
    rw [hend, List.append_nil] at hrest
    exact hrest
  obtain ⟨bytes, hbytes, halike⟩ := hwritten m f.name fun v hv => by
    have hlt := Record.depth_lt_of_mem hget hv
    omega
  refine ⟨front, bytes, by rw [← hmid]; exact hreads, ?_, halike⟩
  have hregion : regionBytes (c.encodeAt m) f.name layout.align 0 items = .ok bytes := hbytes
  obtain ⟨hlen, -⟩ := toLength_eq_ok.mp hlen
  simp only [Frame.opBytes, hlist, ok_bind, hregion]
  rcases hr.region_length hi hlayout (noted_eq_ok.mp hn) with hnone | hsome
  · rw [hnone]
  · rw [hsome]
    exact if_pos (by rw [hlen, halike.1, hfront])

/-- A field of its own is written in bytes that stand for those that it was read from. -/
theorem Ran.ownBytes (hc : c.Sound) (hsettled : c.schema.PromisesSettled)
    (hd : c.Rewrites same d) {m : Nat}
    (hdepth : (st entries.length).record.depth ≤ m + 1) (initial : List Initializer) {i : Nat}
    {f : Field} (hi : s.fields[i]? = some f) (hunion : s.unionOf? f.name = none) {shape : WireShape}
    (hshape : c.schema.Shaped s f shape) {role : Role}
    (hholds : (st i).holds s.name f.condition = .ok true)
    (hread : c.readOp d s plan f.name (st i)
      (WireEntry.decodeOp s { field := f.name, role, guard := f.condition, shape }) = .ok (mid i)) :
    ∃ used bytes, (st i).cursor.Reads used (mid i).cursor ∧
      (Frame.mk s plan (st entries.length).record initial).opBytes c.schema c.measure
        (c.encodeAt m) f.name
        (WireEntry.encodeOp s { field := f.name, role, guard := f.condition, shape }) = .ok bytes ∧
      Bytes.Alike same bytes used := by
  -- the elements of a list nest less deep than the record
  have helements : ∀ items, (st entries.length).record.get? f.name = some (.list items) →
      ∀ v ∈ items, v.depth ≤ m := by
    intro items hget v hv
    have := Record.depth_lt_of_mem hget hv
    omega
  have hlist : ∀ items, (st entries.length).record.get? f.name = some (.list items) →
      (Frame.mk s plan (st entries.length).record initial).list f.name = .ok items :=
    fun items h => Frame.list_eq_ok.mpr h
  cases hshape with
  | leaf hstored hform =>
    exact hr.leafBytes hs hsame hi hunion hform hread initial _
  | reserved hdisp hform =>
    obtain ⟨bytes, hreads, hbytes⟩ := hr.reservedBytes hl hkeeps hrecounts hc hsettled hi
      hunion hdisp hform hholds hread initial (c.encodeAt m)
    exact ⟨bytes, bytes, hreads, hbytes, .refl bytes⟩
  | nested hstored hform hstruct =>
    obtain ⟨⟨r, cursor⟩, hrec, hmid⟩ := bind_eq_ok.mp hread
    have hmid := Except.ok.inj hmid
    have hget := hr.get?_of_store hi hunion hmid
    obtain ⟨used, hreads, hrewritten⟩ := hd _ _ _ _ hrec
    have hlt : r.toValue.depth < _ := Record.depth_lt_of_get? hget
    obtain ⟨bytes, hbytes, halike⟩ := hrewritten.written m
      ((Frame.mk s plan (st entries.length).record initial).initialInside f.name)
      (Nat.le_of_lt_succ (Nat.lt_of_lt_of_le hlt hdepth))
    have hrecord : asRecord f.name r.toValue = .ok r := asRecord_eq_ok.mpr rfl
    refine ⟨used, bytes, by rw [← hmid]; exact hreads, ?_, halike⟩
    simp only [WireEntry.encodeOp, Frame.opBytes, Frame.nested, hget, hrecord, ok_bind]
    exact hbytes
  | @array element count hdisp helem =>
    simp only [WireEntry.decodeOp, Codec.readOp, bind_eq_ok] at hread
    obtain ⟨n, hn, ⟨items, cursor⟩, hitems, hmid⟩ := hread
    have hmid := Except.ok.inj hmid
    have hget := hr.get?_of_store hi hunion hmid
    obtain ⟨used, hreads, -, hwritten⟩ := hd.items (readsItems_of_readCounted hitems)
    obtain ⟨bytes, hbytes, halike⟩ := hwritten m f.name (helements items hget)
    refine ⟨used, bytes, by rw [← hmid]; exact hreads, ?_, halike⟩
    simp only [WireEntry.encodeOp, Frame.opBytes, hlist items hget, ok_bind]
    cases count with
    | field _ => exact hbytes
    | literal expected =>
      cases hn
      exact (if_pos (length_of_readCounted hitems)).trans hbytes
  | @arraySized layout group hdisp hgroup =>
    have hlayout : f.sizedArray? = some layout := by unfold Field.sizedArray?; rw [hdisp]
    exact hr.rewritesRegion hs hsame hd hdepth initial hi hunion hlayout hread
  | @fill element hdisp helem =>
    obtain ⟨⟨items, cursor⟩, hitems, hmid⟩ := bind_eq_ok.mp hread
    have hmid := Except.ok.inj hmid
    have hget := hr.get?_of_store hi hunion hmid
    obtain ⟨used, hreads, -, hwritten⟩ := hd.items (readsItems_of_readToEnd hitems).1
    obtain ⟨bytes, hbytes, halike⟩ := hwritten m f.name (helements items hget)
    refine ⟨used, bytes, by rw [← hmid]; exact hreads, ?_, halike⟩
    simp only [WireEntry.encodeOp, Frame.opBytes, hlist items hget, ok_bind]
    exact hbytes

omit hl hkeeps in
/-- The slot of a union is written in as many bytes as it takes. -/
theorem Ran.slotBytes (hd : c.Rewrites same d) {m : Nat}
    (hdepth : (st entries.length).record.depth ≤ m + 1) (initial : List Initializer)
    {slot : UnionSlot} (hslot : slot ∈ slots) :
    ∃ used bytes, (st slot.position).cursor.Reads used (mid slot.position).cursor ∧
      (Frame.mk s plan (st entries.length).record initial).opBytes c.schema c.measure
        (c.encodeAt m) slot.name (.union slot.bytes slot.members) = .ok bytes ∧
      Bytes.Alike same bytes used := by
  obtain ⟨raw, t, hreads, hlen, hlookup, hmember⟩ := hr.resolved hslot
  obtain ⟨k, f, hk, hname, ht, -⟩ := hr.planned.tested_of_slot hr.wellFormed hslot
  obtain ⟨g, hg, -⟩ := hr.planned.union_of_slot hslot
  rw [← hname] at hlookup
  obtain ⟨w, hint, hdecides⟩ := hr.intOf_decides
    (Frame.mk s plan (st entries.length).record initial) rfl rfl (List.mem_of_getElem? hk) ht
    hlookup c.measure
  have hguards : ∀ x ∈ slot.members, x.guard.field = f.name := fun x hx =>
    (hr.planned.guard_of_slot hr.wellFormed hslot x hx).trans hname.symm
  have hchosen : slot.members.find? (fun x => x.guard.holds w) =
      slot.members.find? fun x => x.guard.holds t := by
    refine List.find?_congr fun x hx => ?_
    obtain ⟨f', hf', -, hstored, hcond, -⟩ := hr.planned.member_of_slot hr.wellFormed hslot hx
    exact hdecides x.guard (hguards x hx)
      (hrecounts f' hf' (Field.isConst_of_isStored hstored) x.guard hcond)
  have hmemberBytes : ∃ bytes, (Frame.mk s plan (st entries.length).record initial).unionBytes
      c.measure (c.encodeAt m) slot.members = .ok bytes ∧ bytes.length ≤ raw.length := by
    rw [Frame.unionBytes_eq hint hguards, hchosen]
    cases hfind : slot.members.find? fun x => x.guard.holds t with
    | none => exact ⟨[], rfl, Nat.zero_le _⟩
    | some x =>
      obtain ⟨v, cursor, hv, hget⟩ := hmember x hfind
      obtain ⟨used, hused, -, hwritten⟩ := hd.element hv
      have hlt := Record.depth_lt_of_get? hget
      obtain ⟨bytes, hbytes, halike⟩ := hwritten m x.field (by omega)
      have hvalue : (Frame.mk s plan (st entries.length).record initial).value x.field = .ok v := by
        unfold Frame.value
        rw [hget]
      refine ⟨bytes, bind_eq_ok'.mpr ⟨v, hvalue, hbytes⟩, ?_⟩
      have hraw : raw = used ++ cursor.rest := hused.rest
      rw [hraw, List.length_append, halike.1]
      exact Nat.le_add_right _ _
  obtain ⟨bytes, hbytes, hle⟩ := hmemberBytes
  refine ⟨raw, bytes ++ Bytes.zeros (slot.bytes - bytes.length), hreads, ?_, ?_, fun h => ?_⟩
  · simp only [Frame.opBytes, hbytes, ok_bind]
    exact if_pos (hlen ▸ hle)
  · rw [List.length_append, Bytes.length_zeros]
    omega
  · -- there is no union where every byte matters
    rw [((hsame h).1 s hs).1] at hg
    cases hg

/-- An entry is written in bytes that stand for those that it was read from. -/
theorem Ran.stepBytes (hc : c.Sound) (hsettled : c.schema.PromisesSettled)
    (hd : c.Rewrites same d) {m : Nat}
    (hdepth : (st entries.length).record.depth ≤ m + 1) (initial : List Initializer) {i : Nat}
    {e : WireEntry} (he : entries[i]? = some (some e)) :
    ∃ used bytes, (st i).cursor.Reads used (st (i + 1)).cursor ∧
      (Frame.mk s plan (st entries.length).record initial).stepBytes c.schema c.measure
        (c.encodeAt m) (e.step (e.encodeOp s)) = .ok bytes ∧
      Bytes.Alike same bytes used := by
  have hi : i < entries.length := (List.getElem?_eq_some_iff.mp he).1
  have hlt : i < s.fields.length := hr.planned.length ▸ hi
  obtain ⟨e', he', hentry⟩ := hr.planned.places i _ (List.getElem?_eq_getElem hlt)
  rw [he] at he'
  cases he'
  rw [hr.cursor hi]
  cases hentry with
  | slot hslot hpos hname =>
    obtain ⟨used, bytes, hreads, hbytes, halike⟩ :=
      hr.slotBytes hrecounts hs hsame hd hdepth initial hslot
    exact ⟨used, bytes, hpos ▸ hreads, hbytes, halike⟩
  | own hconst hunion hshape =>
    have hf : s.fields[i] ∈ s.fields := List.getElem_mem hlt
    have hcond := hrecounts _ hf hconst
    rcases hr.entry_cases he with ⟨hfalse, hskip⟩ | ⟨htrue, hread⟩
    · have hholds := hr.holds (Frame.mk s plan (st entries.length).record initial) rfl rfl hf
        hcond (Nat.le_of_lt hi) hfalse c.measure
      refine ⟨[], [], by rw [hskip]; exact .refl _, ?_, .refl []⟩
      exact bind_eq_ok.mpr ⟨false, hholds, rfl⟩
    · have hholds := hr.holds (Frame.mk s plan (st entries.length).record initial) rfl rfl hf
        hcond (Nat.le_of_lt hi) htrue c.measure
      obtain ⟨used, bytes, hreads, hbytes, halike⟩ := hr.ownBytes hl hkeeps hrecounts hs hsame hc
        hsettled hd hdepth initial (List.getElem?_eq_getElem hlt) hunion hshape htrue hread
      exact ⟨used, bytes, hreads, bind_eq_ok.mpr ⟨true, hholds, hbytes⟩, halike⟩

/-- The entries from a place on are written in bytes that stand for those that they were read
from. -/
theorem Ran.bytesFrom (hc : c.Sound) (hsettled : c.schema.PromisesSettled)
    (hd : c.Rewrites same d) {m : Nat}
    (hdepth : (st entries.length).record.depth ≤ m + 1) (initial : List Initializer) (k : Nat)
    {i : Nat} (hi : i + k = entries.length) :
    ∃ used bytes, (st i).cursor.Reads used (st entries.length).cursor ∧
      joinM ((Frame.mk s plan (st entries.length).record initial).stepBytes c.schema c.measure
        (c.encodeAt m)) (((entries.drop i).filterMap id).map fun e => e.step (e.encodeOp s)) =
          .ok bytes ∧
      Bytes.Alike same bytes used := by
  induction k generalizing i with
  | zero =>
    obtain rfl : i = entries.length := hi
    rw [List.drop_length]
    exact ⟨[], [], .refl _, rfl, .refl []⟩
  | succ k ih =>
    have hlt : i < entries.length := by omega
    obtain ⟨used, bytes, hreads, hbytes, halike⟩ := ih (i := i + 1) (by omega)
    rw [List.drop_eq_getElem_cons hlt]
    cases he : entries[i] with
    | none =>
      have hskip := hr.skip i (List.getElem?_eq_some_iff.mpr ⟨hlt, he⟩)
      rw [hr.cursor hlt, hskip] at hreads
      exact ⟨used, bytes, hreads, hbytes, halike⟩
    | some e =>
      obtain ⟨front, first, hfront, hfirst, halike'⟩ := hr.stepBytes hl hkeeps hrecounts hs hsame
        hc hsettled hd hdepth initial (List.getElem?_eq_some_iff.mpr ⟨hlt, he⟩)
      refine ⟨front ++ used, first ++ bytes, hfront.trans hreads, ?_, halike'.append halike⟩
      have hmore : (some e :: entries.drop (i + 1)).filterMap id =
          e :: (entries.drop (i + 1)).filterMap id := rfl
      rw [hmore, List.map_cons]
      simp only [joinM, hfirst, hbytes, ok_bind]

end Places

/-! ## Records -/

/-- What a struct is read as is written in bytes that stand for those that it was read from, if the
elements that were stored decide the conditions as the numbers of elements did. -/
theorem Sound.rewritten_of_steps (hc : c.Sound) (hsettled : c.schema.PromisesSettled)
    (hsame : same → c.schema.Exact ∧ c.schema.CountsPresent) {d : Decoder} (hd : c.Rewrites same d)
    {name : String} {s : Struct} {plan : Plan} (hl : c.lookup name = .ok (s, plan))
    {cursor : Cursor} {p : Progress}
    (hsteps : plan.decode.foldlM (c.readStep d s plan) (Progress.start s name cursor) = .ok p)
    (hrecounts : s.RecountsAll p) :
    ∃ used, cursor.Reads used p.cursor ∧ c.Rewritten same name p.record used := by
  obtain ⟨slots, entries, st, mid, hr, hstart, rfl⟩ := hc.ran_of_steps hl hsteps
  obtain ⟨-, hs, -⟩ := hc.planned_of_lookup hl
  have hfirst : c.Keeps name (st 0) := by
    rw [hstart]
    exact ⟨rfl, fun field v hget => by cases hget⟩
  have hkeeps := hr.keeps hd hfirst (Nat.le_refl _)
  have hbytes := fun m hm initial => hr.bytesFrom (i := 0) hl hkeeps hrecounts hs hsame hc
    hsettled hd (m := m) hm initial entries.length (Nat.zero_add _)
  obtain ⟨used, -, hreads, -⟩ := hbytes _ (Nat.le_succ _) []
  rw [hstart] at hreads
  refine ⟨used, hreads, hkeeps.typeName, hr.complete hl hkeeps hrecounts, ?_⟩
  intro m initial hm
  cases m with
  | zero =>
    rw [Record.depth_eq] at hm
    exact absurd hm (Nat.not_succ_le_zero _)
  | succ m =>
    obtain ⟨used', bytes, hreads', hbytes', halike⟩ := hbytes m hm (initial ++ plan.initializers)
    rw [hstart] at hreads'
    obtain rfl : used' = used := List.append_cancel_right (hreads'.rest.symm.trans hreads.rest)
    refine ⟨bytes, ?_, halike⟩
    refine bind_eq_ok.mpr ⟨_, frame_eq_ok.mpr ⟨s, plan, hl, hkeeps.typeName, rfl⟩, ?_⟩
    rw [hr.planned.encode]
    exact hbytes'

/-- Where the counted arrays are always there, what is read is written in the bytes that it was read
from, if every byte matters. -/
theorem Sound.rewrites (hc : c.Sound) (hcounts : c.schema.CountsPresent)
    (hsettled : c.schema.PromisesSettled) (n : Nat) :
    c.Rewrites c.schema.Exact (c.decodeAt n) := by
  induction n with
  | zero =>
    intro name cursor r cursor' h
    cases h
  | succ n ih =>
    intro name cursor r cursor' h
    simp only [decodeAt, bind_eq_ok] at h
    obtain ⟨⟨s, plan⟩, hl, p, hsteps, h⟩ := h
    cases h
    refine hc.rewritten_of_steps hsettled (fun hexact => ⟨hexact, hcounts⟩) ih hl hsteps ?_
    obtain ⟨slots, entries, st, mid, hr, -, rfl⟩ := hc.ran_of_steps hl hsteps
    obtain ⟨-, hs, -⟩ := hc.planned_of_lookup hl
    intro f hf _ cond _
    exact hr.recounts_of_anchored (Struct.anchored_of_unconditioned (hcounts s hs) _)

end Codec

/-- **Writing what was read.** A record that was read from a buffer is written, in as many bytes as
the buffer has. Where every byte matters, it is written as the buffer, which no other buffer is read
as. -/
theorem encode_of_decode {options : Options} {decls : List Declaration}
    {c : Codec} (hcompile : compile options decls = .ok c) (hcounts : c.schema.CountsPresent)
    (hsettled : c.schema.PromisesSettled) {name : String} {bytes : Bytes} {r : Record}
    (h : c.decode name bytes = .ok r) :
    ∃ bytes', c.encode r = .ok bytes' ∧ bytes'.length = bytes.length ∧
      (c.schema.Exact → bytes' = bytes ∧ ∀ other, c.decode name other = .ok r → other = bytes) := by
  have hc := sound_of_compile hcompile
  have key : ∀ bytes, c.decode name bytes = .ok r →
      ∃ bytes', c.encode r = .ok bytes' ∧ c.schema.Alike bytes' bytes := by
    intro bytes h
    obtain ⟨⟨r', used⟩, hprefix, h⟩ := bind_eq_ok.mp h
    obtain ⟨⟨r', cursor⟩, hread, hpair⟩ := map_eq_ok.mp hprefix
    cases hpair
    dsimp only at h
    split at h
    case isFalse => cases h
    rename_i hused
    cases h
    obtain ⟨front, hreads, hrec⟩ := hc.rewrites hcounts hsettled _ _ _ _ _ hread
    obtain ⟨bytes', hbytes', halike⟩ := hrec.written (c.depthOf r) [] (Nat.le_add_right _ _)
    have hfront : front = bytes := by
      have hrest : bytes = front ++ cursor.rest := hreads.rest
      have hoffset : cursor.offset = 0 + front.length := hreads.offset
      have hlen := congrArg List.length hrest
      rw [List.length_append] at hlen
      have hnil : cursor.rest = [] := List.length_eq_zero_iff.mp (by omega)
      rw [hrest, hnil, List.append_nil]
    refine ⟨bytes', ?_, hfront ▸ halike⟩
    unfold Codec.encode Codec.encoder
    rw [hrec.typeName]
    exact hbytes'
  obtain ⟨bytes', hbytes', halike⟩ := key bytes h
  refine ⟨bytes', hbytes', halike.1, fun hexact => ⟨halike.2 hexact, fun other hother => ?_⟩⟩
  obtain ⟨other', hother', halike'⟩ := key other hother
  rw [hbytes'] at hother'
  cases hother'
  rw [← halike'.2 hexact, halike.2 hexact]

/-- The batch is written in 32 bytes. The parts of a batch have neither a union nor aligned elements:
no other bytes are read as the same transfer. -/
theorem encode_of_decode_batch :
    (∃ r bytes, sampleCodec.decode "Batch" sampleBytes = .ok r ∧
      sampleCodec.encode r = .ok bytes ∧ bytes.length = 32) ∧
    ∃ r, (codecOf (sampleDeclarations.take 3)).schema.Exact ∧
      (codecOf (sampleDeclarations.take 3)).decode "Transfer" [1, 0, 3, 0, 0, 0, 0, 0, 0, 0] =
        .ok r ∧
      ∀ other, (codecOf (sampleDeclarations.take 3)).decode "Transfer" other = .ok r →
        other = [1, 0, 3, 0, 0, 0, 0, 0, 0, 0] := by
  constructor
  · have hcounts : sampleCodec.schema.CountsPresent := by decide +kernel
    have hsettled : sampleCodec.schema.PromisesSettled := by decide +kernel
    have hread : (sampleCodec.decode "Batch" sampleBytes).toOption.isSome = true := by
      decide +kernel
    obtain ⟨r, hr⟩ := Option.isSome_iff_exists.mp hread
    obtain ⟨bytes, hbytes, hlen, -⟩ :=
      encode_of_decode compile_sample hcounts hsettled (eq_ok_of_toOption hr)
    exact ⟨r, bytes, eq_ok_of_toOption hr, hbytes, hlen⟩
  · have hcompile : compile {} (sampleDeclarations.take 3) =
        .ok (codecOf (sampleDeclarations.take 3)) := compile_codecOf (by decide +kernel)
    have hexact : (codecOf (sampleDeclarations.take 3)).schema.Exact := by decide +kernel
    have hread : ((codecOf (sampleDeclarations.take 3)).decode "Transfer"
        [1, 0, 3, 0, 0, 0, 0, 0, 0, 0]).toOption.isSome = true := by decide +kernel
    obtain ⟨r, hr⟩ := Option.isSome_iff_exists.mp hread
    obtain ⟨bytes, -, -, honly⟩ := encode_of_decode hcompile (by decide +kernel)
      (by decide +kernel) (eq_ok_of_toOption hr)
    exact ⟨r, hexact, eq_ok_of_toOption hr, (honly hexact).2⟩

end WireLayout
