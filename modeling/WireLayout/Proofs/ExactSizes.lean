import Mathlib.Algebra.BigOperators.Group.List.Basic
import Mathlib.Data.Int.ModEq
import WireLayout.Proofs.MeasureDepth
import WireLayout.Proofs.Widths

/-!
# Sizes over the integers

Sizes are computed with numbers of 64 bits. The same computation is carried out here over the
integers, where a sum has no limit and the length of a region is what its field says, negative or
not. A size that is found is that of the integers: nothing wraps around on the way. Where the
integers give a size that 64 bits cannot hold, measuring fails for a number out of range and for no
other reason, since up to the first such number both computations do the same.
-/

namespace WireLayout

open Relation

/-! ## Measuring without a limit -/

/-- Gives the size of a struct's record as an integer, under initial values for its members. -/
abbrev ExactMeasure := String → List Initializer → Record → Option Int

/-- The sum of the sizes of parts, if all of them have one. -/
def exactSum {α β : Type} [Add β] [Zero β] (size : α → Option β) (parts : List α) : Option β :=
  (parts.mapM size).map List.sum

/-- The least number of zeros that lead from an offset to a multiple of an alignment. -/
def exactPadding (offset : Int) : Option Nat → Int
  | none => 0
  | some a => if 1 < a then -offset % a else 0

/-- The bytes of a region of records, each with the zeros behind it; `total` counts from its start.
-/
def exactRegion (measure : ExactMeasure) (align : Option Nat) (total : Int) :
    List Value → Option Int
  | [] => some total
  | v :: rest =>
    v.record?.bind fun r => (measure r.typeName [] r).bind fun size =>
      exactRegion measure align (total + size + exactPadding (total + size) align) rest

/-- The size of an element. -/
def Element.exactSize (measure : ExactMeasure) (v : Value) : Element → Option Int
  | .leaf l => some l.form.width
  | .struct ty => v.record?.bind fun r => measure ty [] r

namespace Frame

variable (frame : Frame) (measure : ExactMeasure)

/-- The integer of a field. -/
def exactInt (name : String) : Option Int :=
  match (frame.struct.field? name).bind Field.constValue? with
  | some v => some v.value
  | none =>
    if frame.struct.isCount name then
      (frame.liveLength (frame.struct.arraysCountedBy name)).toOption.map Int.ofNat
    else
      match frame.record.get? name with
      | some v => v.int?
      | none =>
        match frame.initial? name with
        | some v => some v
        | none =>
          (frame.struct.regionsMeasuredBy name).head?.bind fun region =>
            (frame.list region.1).toOption.bind (exactRegion measure region.2 0)

/-- Whether a step is done. -/
def exactHolds : Option Condition → Option Bool
  | none => some true
  | some c => (frame.exactInt measure c.field).map c.holds

/-- What an operation adds to the size; the length of a region is what its field says. -/
def exactOp (field : String) : SizeOp → Option Int
  | .fixed bytes => some bytes
  | .union bytes => some bytes
  | .nested ty =>
    (frame.nested field ty).toOption.bind fun r => measure ty (frame.initialInside field) r
  | .array element =>
    (frame.list field).toOption.bind (exactSum fun v => element.exactSize measure v)
  | .fill element =>
    (frame.list field).toOption.bind (exactSum fun v => element.exactSize measure v)
  | .byteLength lengthField => frame.exactInt measure lengthField

/-- What a step adds to the size. -/
def exactStep (step : Step SizeOp) : Option Int :=
  (frame.exactHolds measure step.guard).bind fun done =>
    if done then frame.exactOp measure step.field step.op else some 0

end Frame

namespace Codec

/-- The size of a record in which structs nest at most `depth` deep. -/
def exactSizeAt (c : Codec) : Nat → ExactMeasure
  | 0 => fun _ _ _ => none
  | depth + 1 => fun name initial r =>
    (c.frame name initial r).toOption.bind fun frame =>
      exactSum (frame.exactStep (exactSizeAt c depth)) frame.plan.size

/-- Whether a record has a size over the integers: from some depth on, it is the size at every
depth. -/
def HasExactSize (c : Codec) (r : Record) (size : Int) : Prop :=
  ∃ enough, ∀ depth, enough ≤ depth → c.exactSizeAt depth r.typeName [] r = some size

end Codec

/-! ## Fixed sizes without a limit -/

/-- The size of a field, its condition aside, where `sizeOf` gives the sizes of types. -/
def Field.exactFixed (sizeOf : String → Option Nat) (f : Field) : Option Nat :=
  match f.disposition with
  | .const _ => some 0
  | .plain | .inline | .reserved _ => sizeOf f.typeName
  | .array (.literal count) => (sizeOf f.typeName).map (· * count)
  | .array (.field _) | .arraySized _ | .arrayFill => none

namespace Struct

/-- The size of the largest member of a union. -/
def exactUnion (sizeOf : String → Option Nat) (s : Struct) (g : ConditionGroup) : Option Nat :=
  (g.members.mapM fun name => (s.field? name).bind (Field.exactFixed sizeOf)).map (·.foldl max 0)

/-- The size of a struct: its unions' slots and its other fields. -/
def exactFixed (sizeOf : String → Option Nat) (s : Struct) : Option Nat :=
  (exactSum (s.exactUnion sizeOf) s.unions).bind fun slots =>
    (exactSum (fun f => if f.condition.isSome then none else f.exactFixed sizeOf)
      s.separateFields).map (slots + ·)

end Struct

namespace Schema

/-- The size of a type whose structs nest at most `depth` deep. -/
def exactFixedAt (schema : Schema) : Nat → String → Option Nat
  | depth, ty =>
    match schema.types.form? ty with
    | some form => some form.width
    | none =>
      match depth with
      | 0 => none
      | depth + 1 => (schema.struct? ty).bind (Struct.exactFixed (exactFixedAt schema depth))

/-- Whether a type has a fixed size over the integers: from some depth on, it is the size at every
depth. -/
def HasExactFixed (schema : Schema) (ty : String) (size : Nat) : Prop :=
  ∃ enough, ∀ depth, enough ≤ depth → schema.exactFixedAt depth ty = some size

/-- Whether the slot of a union has a size over the integers. -/
def HasExactUnion (schema : Schema) (s : Struct) (g : ConditionGroup) (size : Nat) : Prop :=
  ∃ enough, ∀ depth, enough ≤ depth → s.exactUnion (schema.exactFixedAt depth) g = some size

end Schema

variable {α β γ δ : Type}

/-! ## Computations that differ at most in being out of range -/

/-- Whether a computation tracks one over the integers: it has the same result, or else fails where
the integers have none or for a number out of range. -/
structure Tracks (f : α → β) (x : Except CodecError α) (y : Option β) : Prop where
  exact : ∀ a, x = .ok a → y = some (f a)
  beyond : ∀ e, x = .error e → ∀ b, y = some b → ∃ field v, e = .outOfRange field v

namespace Tracks

variable {f : α → β} {x : Except CodecError α} {y : Option β}

theorem ok (a : α) : Tracks f (.ok a) (some (f a)) where
  exact := by
    intro b hb
    rw [Except.ok.inj hb]
  beyond := fun e he => by cases he

theorem fail (e : CodecError) : Tracks f (.error e) none where
  exact := fun a ha => by cases ha
  beyond := fun e he b hb => by cases hb

theorem outOfRange (field : String) (v : Int) (y : Option β) :
    Tracks f (.error (.outOfRange field v)) y where
  exact := fun a ha => by cases ha
  beyond := by
    intro e he _ _
    exact ⟨field, v, (Except.error.inj he).symm⟩

theorem toOption (x : Except CodecError α) : Tracks id x x.toOption := by
  cases x with
  | error e => exact fail e
  | ok a => exact ok a

theorem bind {g : γ → δ} {k : α → Except CodecError γ} {k' : β → Option δ} (h : Tracks f x y)
    (hk : ∀ a, x = .ok a → Tracks g (k a) (k' (f a))) : Tracks g (x >>= k) (y.bind k') := by
  cases x with
  | error e =>
    constructor
    case exact => exact fun c hc => by cases hc
    case beyond =>
      intro e' he' d hd
      obtain ⟨b, hb, -⟩ := Option.bind_eq_some_iff.mp hd
      obtain rfl : e = e' := Except.error.inj he'
      exact h.beyond e rfl b hb
  | ok a =>
    rw [h.exact a rfl]
    exact hk a rfl

theorem map {g : γ → δ} {k : α → γ} {k' : β → δ} (h : Tracks f x y)
    (hk : ∀ a, g (k a) = k' (f a)) : Tracks g (x.map k) (y.map k') := by
  cases x with
  | error e =>
    constructor
    case exact => exact fun c hc => by cases hc
    case beyond =>
      intro e' he' d hd
      obtain ⟨b, hb, -⟩ := Option.map_eq_some_iff.mp hd
      obtain rfl : e = e' := Except.error.inj he'
      exact h.beyond e rfl b hb
  | ok a =>
    rw [h.exact a rfl, Option.map_some, ← hk a]
    exact ok (k a)

/-- What goes on from a result goes on from an integer that is there. -/
theorem bind_some {g : γ → δ} {b : β} {k : α → Except CodecError γ} {z : Option δ}
    (h : Tracks f x (some b)) (hk : ∀ a, b = f a → Tracks g (k a) z) :
    Tracks g (x >>= k) z := by
  have hbind : Tracks g (x >>= k) ((some b).bind fun _ => z) :=
    h.bind fun a ha => hk a (Option.some.inj (h.exact a ha))
  exact hbind

end Tracks

/-! ## Numbers -/

theorem grow_tracks (total more : Nat) (field : String) :
    Tracks Nat.cast (grow total more field) (some ((total : Int) + more)) := by
  unfold grow
  split
  · rw [← Nat.cast_add]
    exact .ok _
  · exact .outOfRange _ _ _

theorem toLength_tracks (field : String) (v : Int) :
    Tracks Nat.cast (toLength field v) (some v) := by
  unfold toLength
  split
  · rename_i n hn
    rw [(asSize?_eq_some.mp hn).1]
    exact .ok n
  · exact .outOfRange _ _ _

theorem cast_padding (offset : Nat) (align : Option Nat) :
    (padding offset align : Int) = exactPadding offset align := by
  cases align with
  | none => rfl
  | some a =>
    unfold padding exactPadding
    dsimp only
    split
    · rename_i ha
      have hle : offset % a ≤ a := Nat.le_of_lt (Nat.mod_lt _ (Nat.lt_of_succ_lt ha))
      rw [Int.natCast_mod, Nat.cast_sub hle, Int.natCast_mod, Int.sub_emod_left]
      exact (Int.mod_modEq offset a).neg
    · rfl

/-! ## Values -/

theorem asRecord_tracks (field : String) (v : Value) :
    Tracks id (asRecord field v) v.record? := by
  unfold asRecord
  split
  · rename_i r hr
    rw [hr]
    exact .ok r
  · rename_i hr
    rw [hr]
    exact .fail _

theorem asInt_tracks (field : String) (v : Value) : Tracks id (asInt field v) v.int? := by
  unfold asInt
  split
  · rename_i n hn
    rw [hn]
    exact .ok n
  · rename_i hn
    rw [hn]
    exact .fail _

/-! ## Sums of sizes -/

theorem exactSum_nil {β : Type} [AddMonoid β] (size : α → Option β) (total : β) :
    (exactSum size []).map (total + ·) = some total :=
  congrArg some (add_zero total)

theorem exactSum_cons {β : Type} [AddMonoid β] (size : α → Option β) (a : α) (parts : List α)
    (total : β) : (exactSum size (a :: parts)).map (total + ·) =
      (size a).bind fun n => (exactSum size parts).map (total + n + ·) := by
  unfold exactSum
  rw [List.mapM_cons]
  cases size a with
  | none => rfl
  | some n =>
    cases parts.mapM size with
    | none => simp
    | some sizes => simp [add_assoc]

/-- Whether a measure tracks one over the integers. -/
def Measure.Tracks (m : Measure) (m' : ExactMeasure) : Prop :=
  ∀ name initial r, WireLayout.Tracks Nat.cast (m name initial r) (m' name initial r)

section Measuring

variable {m : Measure} {m' : ExactMeasure} (h : m.Tracks m')

include h

theorem regionLength_tracks (field : String) (align : Option Nat) (total : Nat)
    (items : List Value) : Tracks Nat.cast (regionLength m field align total items)
      (exactRegion m' align total items) := by
  induction items generalizing total with
  | nil => exact .ok total
  | cons v rest ih =>
    unfold regionLength exactRegion
    refine (asRecord_tracks field v).bind fun r _ => (h _ _ _).bind fun size _ => ?_
    refine (grow_tracks total size field).bind_some fun sum hsum => ?_
    rw [hsum, ← cast_padding]
    refine (grow_tracks sum (padding sum align) field).bind_some fun next hnext => ?_
    rw [hnext]
    exact ih next

theorem Element.size_tracks (field : String) (v : Value) (element : Element) :
    Tracks Nat.cast (element.size m field v) (element.exactSize m' v) := by
  cases element with
  | leaf l => exact .ok l.form.width
  | struct ty => exact (asRecord_tracks field v).bind fun r _ => h _ _ _

theorem elementsSize_tracks (element : Element) (field : String) (total : Nat)
    (items : List Value) : Tracks Nat.cast (elementsSize m element field total items)
      ((exactSum (fun v => element.exactSize m' v) items).map ((total : Int) + ·)) := by
  induction items generalizing total with
  | nil =>
    rw [exactSum_nil]
    exact .ok total
  | cons v rest ih =>
    unfold elementsSize
    rw [exactSum_cons]
    refine (Element.size_tracks h field v element).bind fun size _ => ?_
    refine (grow_tracks total size field).bind_some fun sum hsum => ?_
    rw [hsum]
    exact ih sum

namespace Frame

variable (frame : Frame)

theorem intOf_tracks (name : String) :
    Tracks id (frame.intOf m name) (frame.exactInt m' name) := by
  unfold intOf exactInt
  cases (frame.struct.field? name).bind Field.constValue? with
  | some v => exact .ok v.value
  | none =>
    dsimp only
    by_cases hcount : frame.struct.isCount name = true
    · rw [if_pos hcount, if_pos hcount]
      exact (Tracks.toOption _).map fun n => rfl
    · rw [if_neg hcount, if_neg hcount]
      cases frame.record.get? name with
      | some v => exact asInt_tracks name v
      | none =>
        cases frame.initial? name with
        | some v => exact .ok v
        | none =>
          cases (frame.struct.regionsMeasuredBy name).head? with
          | none => exact .fail _
          | some region =>
            refine (Tracks.toOption (frame.list region.1)).bind fun items _ => ?_
            have hregion : Tracks id ((regionLength m region.1 region.2 0 items).map Int.ofNat)
                ((exactRegion m' region.2 0 items).map id) :=
              (regionLength_tracks h region.1 region.2 0 items).map fun n => rfl
            rw [Option.map_id] at hregion
            exact hregion

theorem holds_tracks (guard : Option Condition) :
    Tracks id (frame.holds m guard) (frame.exactHolds m' guard) := by
  cases guard with
  | none => exact .ok true
  | some c => exact (frame.intOf_tracks h c.field).map fun v => rfl

theorem opSize_tracks (field : String) (op : SizeOp) :
    Tracks Nat.cast (frame.opSize m field op) (frame.exactOp m' field op) := by
  have hlist : ∀ element : Element, Tracks Nat.cast
      (frame.list field >>= elementsSize m element field 0)
      ((frame.list field).toOption.bind (exactSum fun v => element.exactSize m' v)) := by
    intro element
    refine (Tracks.toOption _).bind fun items _ => ?_
    have hitems := elementsSize_tracks h element field 0 items
    simp only [Nat.cast_zero, zero_add, Option.map_id'] at hitems
    exact hitems
  cases op with
  | fixed bytes => exact .ok bytes
  | union bytes => exact .ok bytes
  | nested ty => exact (Tracks.toOption _).bind fun r _ => h _ _ _
  | array element => exact hlist element
  | fill element => exact hlist element
  | byteLength lengthField =>
    have hlength : Tracks Nat.cast (frame.opSize m field (.byteLength lengthField))
        ((frame.exactInt m' lengthField).bind some) :=
      (frame.intOf_tracks h lengthField).bind fun v _ => toLength_tracks lengthField v
    rw [Option.bind_fun_some] at hlength
    exact hlength

theorem stepsSize_tracks (total : Nat) (steps : List (Step SizeOp)) :
    Tracks Nat.cast (frame.stepsSize m total steps)
      ((exactSum (frame.exactStep m') steps).map ((total : Int) + ·)) := by
  induction steps generalizing total with
  | nil =>
    rw [exactSum_nil]
    exact .ok total
  | cons step rest ih =>
    unfold stepsSize
    rw [exactSum_cons, exactStep, Option.bind_assoc]
    refine (frame.holds_tracks h step.guard).bind fun done _ => ?_
    cases done with
    | false =>
      -- over the integers a step that is not done adds nothing
      have hrest := ih total
      rw [← add_zero (total : Int)] at hrest
      exact hrest
    | true =>
      refine (frame.opSize_tracks h step.field step.op).bind fun size _ => ?_
      refine (grow_tracks total size step.field).bind_some fun sum hsum => ?_
      rw [hsum]
      exact ih sum

end Frame

end Measuring

/-- Within every depth, measuring tracks the same computation over the integers. -/
theorem Codec.sizeAt_tracks (c : Codec) (depth : Nat) :
    (c.sizeAt depth).Tracks (c.exactSizeAt depth) := by
  induction depth with
  | zero => exact fun name _ _ => .fail _
  | succ depth ih =>
    intro name initial r
    refine (Tracks.toOption (c.frame name initial r)).bind fun frame _ => ?_
    have hsteps := frame.stepsSize_tracks ih 0 frame.plan.size
    simp only [Nat.cast_zero, zero_add, Option.map_id'] at hsteps
    exact hsteps

theorem Frame.stepsSize_lt {frame : Frame} {m : Measure} {steps : List (Step SizeOp)}
    {total n : Nat} (htotal : total < sizeLimit) (h : frame.stepsSize m total steps = .ok n) :
    n < sizeLimit := by
  induction steps generalizing total with
  | nil =>
    obtain rfl := Except.ok.inj h
    exact htotal
  | cons step rest ih =>
    unfold stepsSize at h
    obtain ⟨done, -, h⟩ := bind_eq_ok.mp h
    cases done with
    | false => exact ih htotal h
    | true =>
      obtain ⟨size, -, h⟩ := bind_eq_ok.mp h
      obtain ⟨sum, hsum, h⟩ := bind_eq_ok.mp h
      exact ih (grow_eq_ok.mp hsum).2 h

namespace Codec

variable {c : Codec} {r : Record}

theorem lt_of_size {n : Nat} (h : c.size r = .ok n) : n < sizeLimit := by
  unfold size measure at h
  cases hdepth : c.depthOf r with
  | zero =>
    rw [hdepth] at h
    cases h
  | succ depth =>
    rw [hdepth] at h
    obtain ⟨frame, -, h⟩ := bind_eq_ok.mp h
    exact Frame.stepsSize_lt (by decide) h

/-- A size that is found is the one over the integers. -/
theorem exact_of_size {n : Nat} (h : c.size r = .ok n) : c.HasExactSize r n := by
  refine ⟨c.depthOf r, fun depth hle => ?_⟩
  exact (c.sizeAt_tracks depth r.typeName [] r).exact n (c.sizeAt_below hle _ _ _ n h)

/-- A size over the integers that is no number of 64 bits is not found. -/
theorem outOfRange_of_exact (hc : c.Sound)
    (hembeds : ∀ name, ¬ TransGen c.schema.Embeds name name) {n : Int} (h : c.HasExactSize r n)
    (hn : sizeLimit ≤ n) : ∃ field v, c.size r = .error (.outOfRange field v) := by
  obtain ⟨enough, henough⟩ := h
  have hexact := henough _ (Nat.le_max_left enough (c.depthOf r))
  have htracks := c.sizeAt_tracks (max enough (c.depthOf r)) r.typeName [] r
  -- deep enough for the integers, the bounded measure is still what it is at the record's own depth
  rw [hc.sizeAt_eq_measure hembeds (Nat.le_max_right _ _), hexact] at htracks
  cases hsize : c.measure r.typeName [] r with
  | ok m =>
    have hm := lt_of_size hsize
    rw [Option.some.inj (htracks.exact m hsize)] at hn
    omega
  | error e =>
    obtain ⟨field, v, rfl⟩ := htracks.beyond e hsize n rfl
    exact ⟨field, v, hsize⟩

end Codec

/-! ## More depth changes no size -/

theorem exactSum_mono {size size' : α → Option Int} {parts : List α} {total : Int}
    (hsize : ∀ a ∈ parts, ∀ n, size a = some n → size' a = some n)
    (h : exactSum size parts = some total) : exactSum size' parts = some total := by
  have hparts : ∀ sizes, parts.mapM size = some sizes → parts.mapM size' = some sizes := by
    clear h
    induction parts with
    | nil => exact fun sizes hsizes => hsizes
    | cons a parts ih =>
      intro sizes hsizes
      rw [List.mapM_cons] at hsizes ⊢
      obtain ⟨n, hn, hsizes⟩ := Option.bind_eq_some_iff.mp hsizes
      obtain ⟨rest, hrest, hsizes⟩ := Option.bind_eq_some_iff.mp hsizes
      rw [hsize a List.mem_cons_self n hn,
        ih (fun b hb => hsize b (List.mem_cons_of_mem _ hb)) rest hrest]
      exact hsizes
  obtain ⟨sizes, hsizes, hsum⟩ := Option.map_eq_some_iff.mp h
  exact Option.map_eq_some_iff.mpr ⟨sizes, hparts sizes hsizes, hsum⟩

section Mono

variable {m m' : ExactMeasure}
  (hm : ∀ name initial r n, m name initial r = some n → m' name initial r = some n)

include hm

theorem exactRegion_mono {align : Option Nat} {items : List Value} {total n : Int}
    (h : exactRegion m align total items = some n) : exactRegion m' align total items = some n := by
  induction items generalizing total with
  | nil => exact h
  | cons v rest ih =>
    unfold exactRegion at h ⊢
    obtain ⟨r, hr, h⟩ := Option.bind_eq_some_iff.mp h
    obtain ⟨size, hsize, h⟩ := Option.bind_eq_some_iff.mp h
    rw [hr, Option.bind_some, hm _ _ _ size hsize, Option.bind_some]
    exact ih h

theorem Element.exactSize_mono {v : Value} {element : Element} {n : Int}
    (h : element.exactSize m v = some n) : element.exactSize m' v = some n := by
  cases element with
  | leaf l => exact h
  | struct ty =>
    obtain ⟨r, hr, h⟩ := Option.bind_eq_some_iff.mp h
    exact Option.bind_eq_some_iff.mpr ⟨r, hr, hm _ _ _ n h⟩

namespace Frame

variable {frame : Frame}

theorem exactInt_mono {name : String} {v : Int} (h : frame.exactInt m name = some v) :
    frame.exactInt m' name = some v := by
  unfold exactInt at h ⊢
  split
  case h_1 hconst =>
    rw [hconst] at h
    exact h
  case h_2 hconst =>
    rw [hconst] at h
    split
    case isTrue hcount =>
      rw [if_pos hcount] at h
      exact h
    case isFalse hcount =>
      rw [if_neg hcount] at h
      split
      case h_1 hget =>
        rw [hget] at h
        exact h
      case h_2 hget =>
        rw [hget] at h
        split
        case h_1 hinitial =>
          rw [hinitial] at h
          exact h
        case h_2 hinitial =>
          rw [hinitial] at h
          obtain ⟨region, hregion, h⟩ := Option.bind_eq_some_iff.mp h
          obtain ⟨items, hitems, h⟩ := Option.bind_eq_some_iff.mp h
          rw [hregion, Option.bind_some, hitems, Option.bind_some]
          exact exactRegion_mono hm h

theorem exactOp_mono {field : String} {op : SizeOp} {n : Int}
    (h : frame.exactOp m field op = some n) : frame.exactOp m' field op = some n := by
  have hlist : ∀ element : Element,
      (frame.list field).toOption.bind (exactSum fun v => element.exactSize m v) = some n →
      (frame.list field).toOption.bind (exactSum fun v => element.exactSize m' v) = some n := by
    intro element h
    obtain ⟨items, hitems, h⟩ := Option.bind_eq_some_iff.mp h
    rw [hitems, Option.bind_some]
    exact exactSum_mono (fun v _ k hk => Element.exactSize_mono hm hk) h
  cases op with
  | fixed bytes => exact h
  | union bytes => exact h
  | nested ty =>
    obtain ⟨r, hr, h⟩ := Option.bind_eq_some_iff.mp h
    exact Option.bind_eq_some_iff.mpr ⟨r, hr, hm _ _ _ n h⟩
  | array element => exact hlist element h
  | fill element => exact hlist element h
  | byteLength lengthField => exact exactInt_mono hm h

theorem exactStep_mono {step : Step SizeOp} {n : Int} (h : frame.exactStep m step = some n) :
    frame.exactStep m' step = some n := by
  obtain ⟨done, hdone, h⟩ := Option.bind_eq_some_iff.mp h
  refine Option.bind_eq_some_iff.mpr ⟨done, ?_, ?_⟩
  · cases hguard : step.guard with
    | none =>
      rw [hguard] at hdone
      exact hdone
    | some guard =>
      rw [hguard] at hdone
      obtain ⟨v, hv, hholds⟩ := Option.map_eq_some_iff.mp hdone
      exact Option.map_eq_some_iff.mpr ⟨v, exactInt_mono hm hv, hholds⟩
  · cases done with
    | false => exact h
    | true => exact exactOp_mono hm h

end Frame

end Mono

namespace Codec

variable {c : Codec} {r : Record}

theorem exactSizeAt_mono {depth depth' : Nat} (hle : depth ≤ depth') (name : String)
    (initial : List Initializer) (r : Record) (n : Int)
    (h : c.exactSizeAt depth name initial r = some n) :
    c.exactSizeAt depth' name initial r = some n := by
  induction depth generalizing depth' name initial r n with
  | zero => cases h
  | succ depth ih =>
    obtain ⟨more, rfl⟩ := Nat.exists_eq_add_of_le' (Nat.le_trans (Nat.le_add_left 1 _) hle)
    obtain ⟨frame, hframe, h⟩ := Option.bind_eq_some_iff.mp h
    refine Option.bind_eq_some_iff.mpr ⟨frame, hframe, ?_⟩
    refine exactSum_mono (fun step _ k hk => ?_) h
    exact Frame.exactStep_mono (ih (Nat.le_of_succ_le_succ hle)) hk

/-- A size that comes out over the integers at some depth is the size over the integers. -/
theorem hasExactSize_of_exactSizeAt (depth : Nat) {n : Int}
    (h : c.exactSizeAt depth r.typeName [] r = some n) : c.HasExactSize r n :=
  ⟨depth, fun _ hle => exactSizeAt_mono hle _ _ _ n h⟩

end Codec

/-! ## Fixed sizes -/

section Fixed

variable {size size' : α → Option Nat} {parts : List α}
  (hsize : ∀ a ∈ parts, ∀ k, size a = some k → size' a = some k)

include hsize

theorem exactSum_of_sumSizes? {total n : Nat} (h : sumSizes? size total parts = some n) :
    (exactSum size' parts).map (total + ·) = some n := by
  induction parts generalizing total with
  | nil => exact h
  | cons a parts ih =>
    unfold sumSizes? at h
    split at h
    · rename_i sum hsum
      obtain ⟨k, hk, hadd⟩ := Option.bind_eq_some_iff.mp hsum
      rw [exactSum_cons, hsize a List.mem_cons_self k hk, Option.bind_some, ← addSize?_eq_some hadd]
      exact ih (fun b hb => hsize b (List.mem_cons_of_mem _ hb)) h
    · cases h

theorem exactMax_of_foldlM {widest n : Nat}
    (h : parts.foldlM (fun widest a => (size a).map (max widest)) widest = some n) :
    (parts.mapM size').map (·.foldl max widest) = some n := by
  induction parts generalizing widest with
  | nil => exact h
  | cons a parts ih =>
    rw [List.foldlM_cons] at h
    obtain ⟨wider, hwider, h⟩ := Option.bind_eq_some_iff.mp h
    obtain ⟨k, hk, rfl⟩ := Option.map_eq_some_iff.mp hwider
    have hrest := ih (fun b hb => hsize b (List.mem_cons_of_mem _ hb)) h
    obtain ⟨sizes, hsizes, hn⟩ := Option.map_eq_some_iff.mp hrest
    rw [List.mapM_cons, hsize a List.mem_cons_self k hk, hsizes]
    exact congrArg some hn

end Fixed

section Fixed

variable {sizeOf sizeOf' : String → Option Nat}
  (hsizes : ∀ ty n, sizeOf ty = some n → sizeOf' ty = some n)

include hsizes

theorem Field.exactFixed_of_sizeWith? {f : Field} {n : Nat} (h : f.sizeWith? sizeOf = some n) :
    f.exactFixed sizeOf' = some n := by
  unfold sizeWith? at h
  unfold exactFixed
  split
  case h_1 hd => rw [hd] at h; exact h
  case h_2 hd => rw [hd] at h; exact hsizes _ _ h
  case h_3 hd => rw [hd] at h; exact hsizes _ _ h
  case h_4 hd => rw [hd] at h; exact hsizes _ _ h
  case h_5 count hd =>
    rw [hd] at h
    obtain ⟨each, heach, h⟩ := Option.bind_eq_some_iff.mp h
    rw [hsizes _ _ heach, mulSize?_eq_some h]
    rfl
  case h_6 hd => rw [hd] at h; cases h
  case h_7 hd => rw [hd] at h; cases h
  case h_8 hd => rw [hd] at h; cases h

theorem Struct.exactUnion_of_unionSizeWith? {s : Struct} {g : ConditionGroup} {n : Nat}
    (h : s.unionSizeWith? sizeOf g = some n) : s.exactUnion sizeOf' g = some n := by
  rw [unionSizeWith?_eq] at h
  refine exactMax_of_foldlM (fun name _ k hk => ?_) h
  obtain ⟨f, hf, hk⟩ := Option.bind_eq_some_iff.mp hk
  exact Option.bind_eq_some_iff.mpr ⟨f, hf, Field.exactFixed_of_sizeWith? hsizes hk⟩

theorem Struct.exactFixed_of_sizeWith? {s : Struct} {n : Nat}
    (h : s.sizeWith? sizeOf = some n) : s.exactFixed sizeOf' = some n := by
  obtain ⟨slots, hslots, h⟩ := Option.bind_eq_some_iff.mp h
  have hunions : (exactSum (s.exactUnion sizeOf') s.unions).map (0 + ·) = some slots :=
    exactSum_of_sumSizes? (fun g _ k hk => Struct.exactUnion_of_unionSizeWith? hsizes hk) hslots
  simp only [zero_add, Option.map_id'] at hunions
  refine Option.bind_eq_some_iff.mpr ⟨slots, hunions, ?_⟩
  refine exactSum_of_sumSizes? (fun f _ k hk => ?_) h
  unfold memberSizeWith? at hk
  split at hk
  · cases hk
  · rename_i hcondition
    rw [if_neg hcondition]
    exact Field.exactFixed_of_sizeWith? hsizes hk

end Fixed

namespace Schema

variable {schema : Schema}

theorem exactFixedAt_of_fixedSizeAt? {depth : Nat} {ty : String} {n : Nat}
    (h : schema.fixedSizeAt? depth ty = some n) : schema.exactFixedAt depth ty = some n := by
  induction depth generalizing ty n with
  | zero =>
    unfold fixedSizeAt? at h
    unfold exactFixedAt
    exact h
  | succ depth ih =>
    unfold fixedSizeAt? at h
    unfold exactFixedAt
    cases hform : schema.types.form? ty with
    | some form =>
      rw [hform] at h
      exact h
    | none =>
      rw [hform] at h
      obtain ⟨s, hs, h⟩ := Option.bind_eq_some_iff.mp h
      exact Option.bind_eq_some_iff.mpr
        ⟨s, hs, Struct.exactFixed_of_sizeWith? (fun ty n => ih) h⟩

theorem exact_of_fixedSize? {depth : Nat} (hdepth : schema.structs.length ≤ depth) {ty : String}
    {n : Nat} (h : schema.fixedSize? ty = some n) : schema.exactFixedAt depth ty = some n :=
  exactFixedAt_of_fixedSizeAt? (fixedSizeAt?_mono hdepth ty n h)

end Schema

/-- Sizes are those of the integers, where sums and products have no limit and the length of a
region is what its field says: so is the size of a record, if it has one, and so are the fixed sizes
of types and of the slots of unions. A record whose size over the integers is no number of 64 bits
has none, as a number is out of range. -/
theorem sizes_exact {options : Options} {decls : List Declaration} {c : Codec}
    (hc : compile options decls = .ok c) :
    (∀ r n, c.size r = .ok n → c.HasExactSize r n ∧ n < sizeLimit) ∧
    (∀ r (n : Int), c.HasExactSize r n → sizeLimit ≤ n →
      ∃ field v, c.size r = .error (.outOfRange field v)) ∧
    (∀ ty n, c.schema.fixedSize? ty = some n → c.schema.HasExactFixed ty n) ∧
    ∀ s g n, c.schema.unionSize? s g = some n → c.schema.HasExactUnion s g n := by
  refine ⟨?_, ?_, ?_, ?_⟩
  · intro r n h
    exact ⟨Codec.exact_of_size h, Codec.lt_of_size h⟩
  · intro r n h hn
    have hembeds := Schema.not_embeds_self_of_compile hc
    exact Codec.outOfRange_of_exact (sound_of_compile hc) hembeds h hn
  · intro ty n h
    exact ⟨c.schema.structs.length, fun depth hle => Schema.exact_of_fixedSize? hle h⟩
  · intro s g n h
    refine ⟨c.schema.structs.length, fun depth hle => ?_⟩
    exact Struct.exactUnion_of_unionSizeWith? (fun ty n => Schema.exact_of_fixedSize? hle) h

/-- The batch, with a length for its region that is all that 64 bits can hold. -/
def oversizedRecord : Record := sampleRecord.insert "length" (.int (sizeLimit - 1))

/-- The batch has a size, which is its exact one. The other record would take fifteen bytes more than there can be,
and its size is refused. -/
theorem sizes_exact_batch :
    sampleCodec.size sampleRecord = .ok 32 ∧ sampleCodec.HasExactSize sampleRecord 32 ∧
      sampleCodec.HasExactSize oversizedRecord (sizeLimit + 15) ∧
      (∃ field v, sampleCodec.size oversizedRecord = .error (.outOfRange field v)) ∧
      sampleCodec.schema.HasExactFixed "Transfer" 10 := by
  obtain ⟨hexact, hover, hfixed, -⟩ := sizes_exact compile_sample
  have hsize : sampleCodec.size sampleRecord = .ok 32 := eq_ok_of_toOption (by decide +kernel)
  have hoversized : sampleCodec.HasExactSize oversizedRecord (sizeLimit + 15) :=
    Codec.hasExactSize_of_exactSizeAt 1 (by decide +kernel)
  have htransfer : sampleCodec.schema.fixedSize? "Transfer" = some 10 := by decide +kernel
  exact ⟨hsize, (hexact _ _ hsize).1, hoversized, hover _ _ hoversized (by omega),
    hfixed _ _ htransfer⟩

end WireLayout
