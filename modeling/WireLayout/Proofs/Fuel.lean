import WireLayout.Codec.Encode
import WireLayout.Proofs.Values

/-!
# More depth changes no result

Measuring and writing go down a bounded number of structs. A result that is reached within a bound is
reached within every larger one. The steps are taken one at a time: each gives its result also with a
measure or an encoder that succeeds more often.
-/

namespace WireLayout

/-! ## Measuring -/

/-- Whether what the first measure gives is related to what the second gives. -/
def Measure.Related (R : (α : Type) → Except CodecError α → Except CodecError α → Prop)
    (m m' : Measure) : Prop :=
  ∀ name initial r, R Nat (m name initial r) (m' name initial r)

/-- Whether this holds for the records among some elements, without initial values. -/
def Measure.RelatedOn (R : (α : Type) → Except CodecError α → Except CodecError α → Prop)
    (m m' : Measure) (items : List Value) : Prop :=
  ∀ v ∈ items, ∀ r, v = r.toValue → ∀ ty, R Nat (m ty [] r) (m' ty [] r)

/-- Whether the second measure gives every size that the first gives. -/
def Measure.Below (m m' : Measure) : Prop :=
  ∀ name initial r, WireLayout.Below (m name initial r) (m' name initial r)

/-- Whether this holds for the records among some elements, without initial values. -/
def Measure.BelowOn (m m' : Measure) (items : List Value) : Prop :=
  ∀ v ∈ items, ∀ r, v = r.toValue → ∀ ty, WireLayout.Below (m ty [] r) (m' ty [] r)

/-- Whether this holds for the records among the elements of a record's lists. -/
def Frame.Agrees (frame : Frame) (m m' : Measure) : Prop :=
  ∀ name items, frame.record.get? name = some (.list items) → m.BelowOn m' items

section Measuring

variable {R : (α : Type) → Except CodecError α → Except CodecError α → Prop} {m m' : Measure}

theorem Measure.Related.on (h : m.Related R m') (items : List Value) : m.RelatedOn R m' items :=
  fun _ _ r _ ty => h ty [] r

theorem regionLength_related (hR : Sequential R) {items : List Value} (h : m.RelatedOn R m' items)
    (field : String) (align : Option Nat) (total : Nat) :
    R _ (regionLength m field align total items) (regionLength m' field align total items) := by
  induction items generalizing total with
  | nil => exact hR.refl _
  | cons v rest ih =>
    unfold regionLength
    refine hR.bind_right fun r hr => ?_
    refine hR.bind (h v (by simp) r (asRecord_eq_ok.mp hr) r.typeName) fun size _ => ?_
    refine hR.bind_right fun total _ => hR.bind_right fun total _ => ?_
    exact ih (fun w hw => h w (List.mem_cons_of_mem _ hw)) total

theorem regionLength_below {items : List Value} (h : m.BelowOn m' items) (field : String)
    (align : Option Nat) (total : Nat) :
    Below (regionLength m field align total items) (regionLength m' field align total items) :=
  regionLength_related Below.sequential h field align total

theorem elementsSize_related (hR : Sequential R) {items : List Value} (h : m.RelatedOn R m' items)
    (element : Element) (field : String) (total : Nat) :
    R _ (elementsSize m element field total items) (elementsSize m' element field total items) := by
  induction items generalizing total with
  | nil => exact hR.refl _
  | cons v rest ih =>
    unfold elementsSize
    refine hR.bind ?_ fun size _ => hR.bind_right fun total _ =>
      ih (fun w hw => h w (List.mem_cons_of_mem _ hw)) total
    cases element with
    | leaf l => exact hR.refl _
    | struct ty =>
      exact hR.bind_right fun r hr => h v (by simp) r (asRecord_eq_ok.mp hr) ty

namespace Frame

variable {frame : Frame}

theorem list_eq_ok {name : String} {items : List Value} :
    frame.list name = .ok items ↔ frame.record.get? name = some (.list items) := by
  unfold list
  cases frame.record.get? name with
  | none => simp
  | some v => simp [asList_eq_ok]

theorem intOf_related (hR : Sequential R)
    (h : ∀ name items, frame.record.get? name = some (.list items) → m.RelatedOn R m' items)
    (name : String) : R _ (frame.intOf m name) (frame.intOf m' name) := by
  unfold intOf
  split
  · exact hR.refl _
  · split
    · exact hR.refl _
    · split
      · exact hR.refl _
      · split
        · exact hR.refl _
        · split
          · refine hR.bind_right fun items hitems => hR.map ?_ _
            exact regionLength_related hR (h _ items (list_eq_ok.mp hitems)) _ _ 0
          · exact hR.refl _

theorem holds_related (hR : Sequential R)
    (h : ∀ name items, frame.record.get? name = some (.list items) → m.RelatedOn R m' items)
    (guard : Option Condition) : R _ (frame.holds m guard) (frame.holds m' guard) := by
  unfold holds
  split
  · exact hR.refl _
  · exact hR.map (intOf_related hR h _) _

theorem holds_below (h : frame.Agrees m m') (guard : Option Condition) :
    Below (frame.holds m guard) (frame.holds m' guard) :=
  holds_related Below.sequential h guard

theorem opSize_related (hR : Sequential R) (h : m.Related R m') (field : String) (op : SizeOp) :
    R _ (frame.opSize m field op) (frame.opSize m' field op) := by
  cases op with
  | fixed bytes => exact hR.refl _
  | union bytes => exact hR.refl _
  | nested ty => exact hR.bind_right fun r _ => h _ _ _
  | array element =>
    exact hR.bind_right fun items _ => elementsSize_related hR (h.on items) _ _ 0
  | fill element =>
    exact hR.bind_right fun items _ => elementsSize_related hR (h.on items) _ _ 0
  | byteLength lengthField =>
    exact hR.bind (intOf_related hR (fun _ items _ => h.on items) _) fun n _ => hR.refl _

theorem stepsSize_related (hR : Sequential R) (h : m.Related R m') (steps : List (Step SizeOp))
    (total : Nat) : R _ (frame.stepsSize m total steps) (frame.stepsSize m' total steps) := by
  induction steps generalizing total with
  | nil => exact hR.refl _
  | cons step rest ih =>
    unfold stepsSize
    refine hR.bind (holds_related hR (fun _ items _ => h.on items) _) fun b _ => ?_
    cases b with
    | false => exact ih total
    | true =>
      exact hR.bind (opSize_related hR h _ _) fun size _ => hR.bind_right fun total _ => ih total

end Frame

end Measuring

/-- What is related about the parts of records is related about the records, one struct deeper. -/
theorem Codec.sizeAt_related {R : (α : Type) → Except CodecError α → Except CodecError α → Prop}
    (hR : Sequential R) (c : Codec) {n n' : Nat} (h : (c.sizeAt n).Related R (c.sizeAt n')) :
    (c.sizeAt (n + 1)).Related R (c.sizeAt (n' + 1)) :=
  fun _ _ _ => hR.bind_right fun _ _ => Frame.stepsSize_related hR h _ 0

theorem Codec.sizeAt_succ (c : Codec) (n : Nat) : (c.sizeAt n).Below (c.sizeAt (n + 1)) := by
  induction n with
  | zero => exact fun name _ _ => Below.error _ _
  | succ n ih => exact c.sizeAt_related Below.sequential ih

/-- A size that is found within a depth is found within every larger one. -/
theorem Codec.sizeAt_below (c : Codec) {n n' : Nat} (h : n ≤ n') :
    (c.sizeAt n).Below (c.sizeAt n') := by
  induction h with
  | refl => exact fun name initial r => Below.refl _
  | step _ ih => exact fun name initial r =>
      (ih name initial r).trans (c.sizeAt_succ _ name initial r)

/-! ## Writing -/

/-- Whether the second encoder writes everything that the first writes. -/
def Encoder.Below (e e' : Encoder) : Prop :=
  ∀ name initial r, WireLayout.Below (e name initial r) (e' name initial r)

section Writing

variable {e e' : Encoder}

theorem joinM_below {α : Type} {f g : α → Except CodecError Bytes} {l : List α}
    (h : ∀ a ∈ l, Below (f a) (g a)) : Below (joinM f l) (joinM g l) := by
  induction l with
  | nil => exact Below.refl _
  | cons a l ih =>
    unfold joinM
    refine Below.bind (h a (by simp)) fun bytes _ => ?_
    exact Below.bind (ih fun x hx => h x (List.mem_cons_of_mem _ hx)) fun more _ => Below.refl _

theorem Element.write_below (h : e.Below e') (field : String) (v : Value) (element : Element) :
    Below (element.write e field v) (element.write e' field v) := by
  cases element with
  | leaf l => exact Below.refl _
  | struct ty => exact Below.bind_right fun r _ => h _ _ _

theorem regionBytes_below (h : e.Below e') (field : String) (align : Option Nat)
    (items : List Value) (offset : Nat) :
    Below (regionBytes e field align offset items) (regionBytes e' field align offset items) := by
  induction items generalizing offset with
  | nil => exact Below.refl _
  | cons v rest ih =>
    unfold regionBytes
    refine Below.bind_right fun r _ => Below.bind (h _ _ _) fun bytes _ => ?_
    exact Below.bind (ih _) fun more _ => Below.refl _

namespace Frame

variable {frame : Frame}

theorem unionBytes_below (h : e.Below e') (m : Measure) (members : List UnionMember) :
    Below (frame.unionBytes m e members) (frame.unionBytes m e' members) := by
  induction members with
  | nil => exact Below.refl _
  | cons member rest ih =>
    unfold unionBytes
    refine Below.bind_right fun tested _ => ?_
    split
    · exact Below.bind_right fun v _ => Element.write_below h _ v _
    · exact ih

theorem opBytes_below (h : e.Below e') (schema : Schema) (m : Measure) (field : String)
    (op : EncodeOp) :
    Below (frame.opBytes schema m e field op) (frame.opBytes schema m e' field op) := by
  cases op with
  | leaf l => exact Below.refl _
  | length l arrays => exact Below.refl _
  | byteLength l array align => exact Below.refl _
  | reserved l value => exact Below.refl _
  | nested ty isInline => exact Below.bind_right fun r _ => h _ _ _
  | array element count =>
    refine Below.bind_right fun items _ => ?_
    have hjoin := joinM_below (l := items) fun v _ => Element.write_below h field v element
    cases count with
    | field name => exact hjoin
    | literal expected =>
      dsimp only
      split
      · exact hjoin
      · exact Below.refl _
  | arraySized lengthField align =>
    refine Below.bind_right fun items _ => ?_
    exact Below.bind (regionBytes_below h _ _ items 0) fun bytes _ => Below.refl _
  | fill element =>
    exact Below.bind_right fun items _ => joinM_below fun v _ => Element.write_below h field v _
  | union bytes members =>
    exact Below.bind (unionBytes_below h m members) fun bytes _ => Below.refl _

theorem stepBytes_below (h : e.Below e') (schema : Schema) (m : Measure) (step : Step EncodeOp) :
    Below (frame.stepBytes schema m e step) (frame.stepBytes schema m e' step) := by
  refine Below.bind_right fun b _ => ?_
  cases b with
  | false => exact Below.refl _
  | true => exact opBytes_below h schema m _ _

end Frame

end Writing

theorem Codec.encodeAt_succ (c : Codec) (n : Nat) :
    (c.encodeAt n).Below (c.encodeAt (n + 1)) := by
  induction n with
  | zero => exact fun name _ _ => Below.error _ _
  | succ n ih => exact fun name initial r => Below.bind_right fun frame _ =>
      joinM_below fun step _ => Frame.stepBytes_below ih _ _ step

/-- Bytes that are written within a depth are written within every larger one. -/
theorem Codec.encodeAt_below (c : Codec) {n n' : Nat} (h : n ≤ n') :
    (c.encodeAt n).Below (c.encodeAt n') := by
  induction h with
  | refl => exact fun name initial r => Below.refl _
  | step _ ih => exact fun name initial r =>
      (ih name initial r).trans (c.encodeAt_succ _ name initial r)

/-- A record is written in the same bytes within any depth that suffices. -/
theorem Codec.encodeAt_unique (c : Codec) {n n' : Nat} {name : String} {initial : List Initializer}
    {r : Record} {bytes bytes' : Bytes} (h : c.encodeAt n name initial r = .ok bytes)
    (h' : c.encodeAt n' name initial r = .ok bytes') : bytes = bytes' := by
  have hmax := c.encodeAt_below (Nat.le_max_left n n') name initial r bytes h
  have hmax' := c.encodeAt_below (Nat.le_max_right n n') name initial r bytes' h'
  rw [hmax] at hmax'
  exact Except.ok.inj hmax'

end WireLayout
