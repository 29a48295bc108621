import Mathlib.Data.Finset.Card
import Mathlib.Order.Monotone.Basic
import WireLayout.Proofs.Locality

/-!
# The depth that reading needs

Reading goes down a bounded number of structs. A record that is read within a bound is read within
every larger one, and the bound that a decoder takes is large enough for every record that is read
within any.

The second part is a count. What a struct reads of its bytes are shorter runs, for which the bound
suffices by induction, and structs that start with the same bytes. How many structs can be read from
these bytes only grows with the bound, and where it does not grow once it does not grow again. So
after as many steps as there are structs it is what it will always be.
-/

namespace WireLayout

/-! ## Decoders that read more -/

/-- Whether what the first decoder does with bytes of a kind is related to what the second does. -/
def Decoder.RelatedOn (R : (α : Type) → Except CodecError α → Except CodecError α → Prop)
    (kind : Bytes → Prop) (d d' : Decoder) : Prop :=
  ∀ name cursor, kind cursor.rest → R _ (d name cursor) (d' name cursor)

/-- Whether the second decoder reads everything that the first reads from bytes of a kind. -/
def Decoder.BelowOn (kind : Bytes → Prop) (d d' : Decoder) : Prop :=
  ∀ name cursor, kind cursor.rest → Below (d name cursor) (d' name cursor)

/-- Whether the parts of bytes of a kind are of the kind. -/
def ClosedUnderParts (kind : Bytes → Prop) : Prop := ∀ a b, kind (a ++ b) → kind a ∧ kind b

/-- Whether a read takes bytes that lie ahead. -/
def Forward {α : Type} (read : Cursor → Except CodecError (α × Cursor)) : Prop :=
  ∀ c a c', read c = .ok (a, c') → ∃ used, c.Reads used c'

theorem Steady.forward {α : Type} {free : Prop} {read : Cursor → Except CodecError (α × Cursor)}
    (h : Steady free read) : Forward read := fun c a c' hread =>
  (h c a c' hread).imp fun _ hused => hused.1

/-- Whether the bytes ahead and those of the unions are of a kind. -/
structure Progress.Inside (kind : Bytes → Prop) (p : Progress) : Prop where
  cursor : kind p.cursor.rest
  slots : ∀ name raw, p.slots.lookup name = some raw → kind raw

section Reading

variable {R : (α : Type) → Except CodecError α → Except CodecError α → Prop}
  {kind : Bytes → Prop} {d d' : Decoder} {free : String → Prop}

/-- What lies ahead of the cursor after a read is of the kind. -/
theorem Cursor.Reads.kind_rest (hkind : ClosedUnderParts kind) {c c' : Cursor} {used : Bytes}
    (h : c.Reads used c') (hc : kind c.rest) : kind used ∧ kind c'.rest := by
  rw [h.rest] at hc
  exact hkind _ _ hc

theorem Element.read_related (hR : Sequential R) (h : d.RelatedOn R kind d') {cursor : Cursor} (hc : kind cursor.rest)
    (element : Element) : R _ (element.read d cursor) (element.read d' cursor) := by
  cases element with
  | leaf l => exact hR.refl _
  | struct ty => exact hR.map (h _ _ hc) _

theorem Element.read_forward (hd : d.Steady free) (element : Element) :
    Forward fun c => element.read d c := by
  have h : Steady False fun c => element.read d c := read_steady hd fun _ _ hf => hf.elim
  exact h.forward

theorem readCounted_related (hR : Sequential R) (hkind : ClosedUnderParts kind) (hd : d.Steady free)
    (h : d.RelatedOn R kind d') (element : Element) (count : Nat) {cursor : Cursor}
    (hc : kind cursor.rest) :
    R _ (readCounted d element count cursor) (readCounted d' element count cursor) := by
  induction count generalizing cursor with
  | zero => exact hR.refl _
  | succ count ih =>
    unfold readCounted
    refine hR.bind (Element.read_related hR h hc element) fun q hq => ?_
    obtain ⟨used, hused⟩ := Element.read_forward hd element cursor q.1 q.2 hq
    exact hR.bind (ih (hused.kind_rest hkind hc).2) fun _ _ => hR.refl _

theorem readToEnd_related (hR : Sequential R) (hkind : ClosedUnderParts kind)
    {read read' : Cursor → Except CodecError (Value × Cursor)} (hread : Forward read)
    (h : ∀ cursor, kind cursor.rest → R _ (read cursor) (read' cursor)) (field : String)
    (rounds : Nat) {cursor : Cursor} (hc : kind cursor.rest) :
    R _ (readToEnd field read rounds cursor) (readToEnd field read' rounds cursor) := by
  induction rounds generalizing cursor with
  | zero =>
    unfold readToEnd
    exact hR.refl _
  | succ rounds ih =>
    unfold readToEnd
    split
    · exact hR.refl _
    · refine hR.bind (h cursor hc) fun q hq => ?_
      obtain ⟨used, hused⟩ := hread cursor q.1 q.2 hq
      dsimp only
      split
      · exact hR.refl _
      · exact hR.bind (ih (hused.kind_rest hkind hc).2) fun _ _ => hR.refl _

namespace Codec

variable (c : Codec)

theorem peekHeader_related (hR : Sequential R) (h : d.RelatedOn R kind d') (b : HeaderBinding) {bytes : Bytes}
    (hb : kind bytes) : R _ (c.peekHeader d b bytes) (c.peekHeader d' b bytes) :=
  hR.bind (h _ (Cursor.start bytes) hb) fun _ _ => hR.refl _

theorem readPolymorphic_related (hR : Sequential R) (h : d.RelatedOn R kind d') (layout : SizedArray) (group : String)
    {here : Cursor} (hc : kind here.rest) : R _ (c.readPolymorphic d layout group here)
      (c.readPolymorphic d' layout group here) := by
  refine hR.bind (c.peekHeader_related hR h _ hc) fun key _ => hR.bind_right fun name _ => ?_
  exact hR.bind (h _ _ hc) fun _ _ => hR.refl _

theorem readPolymorphic_forward (hd : d.Steady free) (layout : SizedArray) (group : String) :
    Forward (c.readPolymorphic d layout group) := by
  intro a v a' hread
  simp only [readPolymorphic, bind_eq_ok] at hread
  obtain ⟨key, -, name, -, ⟨r, m⟩, hr, m', hskip, hread⟩ := hread
  cases hread
  obtain ⟨used, hused, -⟩ := hd name a r m hr
  obtain ⟨⟨front, m''⟩, htake, hm⟩ := map_eq_ok.mp hskip
  cases hm
  exact ⟨used ++ front, hused.trans (Cursor.reads_of_take htake).1⟩

theorem readUnion_related (hR : Sequential R) (h : d.RelatedOn R kind d') (owner : String) {raw : Bytes} (hraw : kind raw)
    (p : Progress) (members : List UnionMember) :
    R _ (readUnion d owner raw p members) (readUnion d' owner raw p members) := by
  induction members with
  | nil => exact hR.refl _
  | cons m rest ih =>
    unfold readUnion
    refine hR.bind_right fun tested _ => ?_
    split
    · have hc : kind (Cursor.start raw).rest := hraw
      exact hR.bind (Element.read_related hR h hc _) fun _ _ => hR.refl _
    · exact ih

theorem readOp_related (hR : Sequential R) (hkind : ClosedUnderParts kind) (hd : d.Steady free)
    (h : d.RelatedOn R kind d') (s : Struct) (plan : Plan) (field : String) {p : Progress}
    (hp : p.Inside kind) (op : DecodeOp) :
    R _ (c.readOp d s plan field p op) (c.readOp d' s plan field p op) := by
  cases op with
  | leaf l => exact hR.refl _
  | length l => exact hR.refl _
  | reserved l expect => exact hR.refl _
  | checkSizeOf reserved target => exact hR.refl _
  | union size => exact hR.refl _
  | nested ty isInline => exact hR.bind (h _ _ hp.cursor) fun _ _ => hR.refl _
  | array element count =>
    refine hR.bind_right fun n _ => ?_
    exact hR.bind (readCounted_related hR hkind hd h _ _ hp.cursor) fun _ _ => hR.refl _
  | arraySized layout group =>
    refine hR.bind_right fun declared _ => hR.bind_right fun len _ =>
      hR.bind_right fun q hq => ?_
    obtain ⟨⟨front, m⟩, htake, rfl⟩ := map_eq_ok.mp hq
    have hfront := ((Cursor.reads_of_take htake).1.kind_rest hkind hp.cursor).1
    refine hR.bind (readToEnd_related hR hkind (c.readPolymorphic_forward hd _ _) ?_ _ _ hfront)
      fun _ _ => hR.refl _
    exact fun here hhere => c.readPolymorphic_related hR h _ _ hhere
  | fill element =>
    refine hR.bind (readToEnd_related hR hkind (Element.read_forward hd element) ?_ _ _ hp.cursor)
      fun _ _ => hR.refl _
    exact fun here hhere => Element.read_related hR h hhere element
  | resolveUnion members =>
    exact hR.bind_right fun raw hraw =>
      readUnion_related hR h _ (hp.slots field raw (slot_eq_ok.mp hraw)) _ _

theorem readStep_related (hR : Sequential R) (hkind : ClosedUnderParts kind) (hd : d.Steady free)
    (h : d.RelatedOn R kind d') (s : Struct) (plan : Plan) {p : Progress} (hp : p.Inside kind)
    (step : Step DecodeOp) :
    R _ (c.readStep d s plan p step) (c.readStep d' s plan p step) := by
  refine hR.bind_right fun b _ => ?_
  cases b with
  | false => exact hR.refl _
  | true => exact c.readOp_related hR hkind hd h s plan _ hp _

end Codec

end Reading

/-! ## The bytes that a struct is read from -/

namespace Codec

variable {c : Codec} {d : Decoder} {free : String → Prop}

/-- The only bytes that a step adds to those of the unions are the ones that it takes. -/
theorem Performs.slots {s : Struct} {plan : Plan} {field : String} {p p' : Progress}
    {op : DecodeOp} (h : c.Performs d s plan field p op p') :
    p'.slots = p.slots ∨ ∃ size raw, op = .union size ∧ p'.slots = (field, raw) :: p.slots ∧
      p.cursor.Reads raw p'.cursor ∧ raw.length = size := by
  cases h with
  | leaf _ => exact Or.inl (p.slots_noteValue _ _)
  | member _ _ _ => exact Or.inl (p.slots_noteValue _ _)
  | @union size raw cursor htake =>
    obtain ⟨hreads, hlen⟩ := Cursor.reads_of_take htake
    exact Or.inr ⟨size, raw, rfl, rfl, hreads, hlen⟩
  | _ => exact Or.inl rfl

theorem inside_of_readStep {kind : Bytes → Prop} (hkind : ClosedUnderParts kind)
    (hd : d.Steady free) {s : Struct} {plan : Plan} {p p' : Progress} (hp : p.Inside kind)
    {step : Step DecodeOp} (h : c.readStep d s plan p step = .ok p') : p'.Inside kind := by
  have hsteady : Progress.Steady False fun p => c.readStep d s plan p step :=
    readStep_steady hd s plan fun hf => hf.elim
  obtain ⟨used, hused, -⟩ := hsteady p p' h
  refine ⟨(hused.kind_rest hkind hp.cursor).2, fun name raw hraw => ?_⟩
  rcases performs_of_readStep h with rfl | hdone
  · exact hp.slots name raw hraw
  · rcases hdone.slots with hslots | ⟨size, front, -, hslots, hfront, -⟩
    · rw [hslots] at hraw
      exact hp.slots name raw hraw
    · rw [hslots, Ordered.lookup_cons] at hraw
      split at hraw
      · cases hraw
        exact (hfront.kind_rest hkind hp.cursor).1
      · exact hp.slots name raw hraw

/-- The steps of a struct are related where what the decoders do with its bytes is. -/
theorem readSteps_related {R : (α : Type) → Except CodecError α → Except CodecError α → Prop}
    (hR : Sequential R) {kind : Bytes → Prop} (hkind : ClosedUnderParts kind) {d d' : Decoder}
    (hd : d.Steady free) (h : d.RelatedOn R kind d') (s : Struct) (plan : Plan)
    (steps : List (Step DecodeOp)) {p : Progress} (hp : p.Inside kind) :
    R _ (steps.foldlM (c.readStep d s plan) p) (steps.foldlM (c.readStep d' s plan) p) := by
  refine hR.foldlM (Progress.Inside kind) ?_ ?_ hp
  · exact fun p hp step _ => c.readStep_related hR hkind hd h _ _ hp step
  · exact fun p hp step _ p' hp' => inside_of_readStep hkind hd hp hp'

theorem inside_start {kind : Bytes → Prop} (s : Struct) (name : String) {cursor : Cursor}
    (h : kind cursor.rest) : (Progress.start s name cursor).Inside kind :=
  ⟨h, fun _ _ hraw => by cases hraw⟩

/-- Reads a struct and leaves the structs in it to a decoder. -/
def enter (c : Codec) (inner : Decoder) : Decoder := fun name cursor => do
  let (s, plan) ← c.lookup name
  let p ← plan.decode.foldlM (c.readStep inner s plan) (Progress.start s name cursor)
  .ok (p.record, p.cursor)

theorem decodeAt_succ (c : Codec) (n : Nat) : c.decodeAt (n + 1) = c.enter (c.decodeAt n) := rfl

theorem enter_related {R : (α : Type) → Except CodecError α → Except CodecError α → Prop}
    (hR : Sequential R) {kind : Bytes → Prop} (hkind : ClosedUnderParts kind) {d d' : Decoder}
    (hd : d.Steady free) (h : d.RelatedOn R kind d') :
    (c.enter d).RelatedOn R kind (c.enter d') := by
  intro name cursor hcursor
  refine hR.bind_right fun q _ => hR.bind ?_ fun p _ => hR.refl _
  exact readSteps_related hR hkind hd h _ _ _ (inside_start _ _ hcursor)

/-- A struct is read by a decoder that reads more of its bytes. -/
theorem decodeAt_succ_below {kind : Bytes → Prop} (hkind : ClosedUnderParts kind) (hc : c.Sound)
    {n n' : Nat} (h : (c.decodeAt n).BelowOn kind (c.decodeAt n')) :
    (c.decodeAt (n + 1)).BelowOn kind (c.decodeAt (n' + 1)) :=
  enter_related Below.sequential hkind (hc.decodeAt_steady n) h

/-- A record that is read within a depth is read within every larger one. -/
theorem Sound.decodeAt_below (hc : c.Sound) {n n' : Nat} (h : n ≤ n') (name : String)
    (cursor : Cursor) : Below (c.decodeAt n name cursor) (c.decodeAt n' name cursor) := by
  have hall : ClosedUnderParts fun _ => True := fun _ _ _ => ⟨trivial, trivial⟩
  have hsucc : ∀ n, (c.decodeAt n).BelowOn (fun _ => True) (c.decodeAt (n + 1)) := by
    intro n
    induction n with
    | zero => exact fun name _ _ => Below.error _ _
    | succ n ih => exact decodeAt_succ_below hall hc ih
  induction h with
  | refl => exact Below.refl _
  | step _ ih => exact ih.trans (hsucc _ name cursor trivial)

end Codec

/-! ## The depth that suffices -/

/-- Whether the first bytes are the second ones, or fewer. -/
def Bytes.Within (a b : Bytes) : Prop := a.length < b.length ∨ a = b

theorem Bytes.within_closed (b : Bytes) : ClosedUnderParts fun a => a.Within b := by
  intro x y h
  have hlen : (x ++ y).length = x.length + y.length := List.length_append
  rcases Nat.eq_zero_or_pos x.length with hx | hx
  · obtain rfl := List.length_eq_zero_iff.mp hx
    refine ⟨?_, h⟩
    rcases Nat.eq_zero_or_pos b.length with hb | hb
    · exact Or.inr (List.length_eq_zero_iff.mp hb).symm
    · exact Or.inl hb
  · refine ⟨?_, ?_⟩
    · rcases Nat.eq_zero_or_pos y.length with hy | hy
      · obtain rfl := List.length_eq_zero_iff.mp hy
        rwa [List.append_nil] at h
      · rcases h with h | h
        · exact Or.inl (by omega)
        · exact Or.inl (by rw [← h]; omega)
    · rcases h with h | h
      · exact Or.inl (by omega)
      · exact Or.inl (by rw [← h]; omega)

namespace Codec

variable {c : Codec}

/-- A struct is read at one place as it is read at another with the same bytes ahead. -/
theorem Sound.decodeAt_shift (hc : c.Sound) {n n' : Nat} {name : String} {bytes : Bytes}
    (h : Below (c.decodeAt n name (Cursor.start bytes)) (c.decodeAt n' name (Cursor.start bytes)))
    {cursor : Cursor} (hcursor : cursor.rest = bytes) :
    Below (c.decodeAt n name cursor) (c.decodeAt n' name cursor) := by
  rintro ⟨r, after⟩ hr
  obtain ⟨used, hused, hsame⟩ := hc.decodeAt_steady n name cursor r after hr
  have hstart : (Cursor.start bytes).Reads used { offset := used.length, rest := after.rest } :=
    ⟨by rw [← hused.rest, hcursor]; rfl, by simp [Cursor.start]⟩
  have hr' := h _ (hsame _ _ hstart (Or.inl rfl))
  obtain ⟨used', hused', hsame'⟩ := hc.decodeAt_steady n' name _ _ _ hr'
  obtain rfl : used = used' := List.append_cancel_right (hstart.rest.symm.trans hused'.rest)
  exact hsame' cursor after hused (Or.inl rfl)

open Classical in
/-- The structs that can be read from some bytes within a depth. -/
noncomputable def readable (c : Codec) (bytes : Bytes) (n : Nat) : Finset String :=
  (c.schema.structs.map (·.name)).toFinset.filter fun name =>
    ∃ x, c.decodeAt n name (Cursor.start bytes) = .ok x

theorem Sound.readable_mono (hc : c.Sound) (bytes : Bytes) {n n' : Nat} (h : n ≤ n') :
    c.readable bytes n ⊆ c.readable bytes n' := by
  intro name hname
  simp only [readable, Finset.mem_filter] at hname ⊢
  obtain ⟨hmem, x, hx⟩ := hname
  exact ⟨hmem, x, hc.decodeAt_below h name _ x hx⟩

theorem card_readable_le (c : Codec) (bytes : Bytes) (n : Nat) :
    (c.readable bytes n).card ≤ c.schema.structs.length := by
  classical
  unfold readable
  refine Nat.le_trans (Finset.card_filter_le _ _) (Nat.le_trans (List.toFinset_card_le _) ?_)
  rw [List.length_map]

/-- What is read is a struct of the schema. -/
theorem Sound.mem_readable (hc : c.Sound) {bytes : Bytes} {n : Nat} {name : String}
    {x : Record × Cursor} (h : c.decodeAt n name (Cursor.start bytes) = .ok x) :
    name ∈ c.readable bytes n := by
  cases n with
  | zero => cases h
  | succ n =>
    have h' := h
    simp only [decodeAt, bind_eq_ok] at h'
    obtain ⟨⟨s, plan⟩, hl, -⟩ := h'
    obtain ⟨-, hs, hname, -⟩ := hc.planned_of_lookup hl
    simp only [readable, Finset.mem_filter, List.mem_toFinset, List.mem_map]
    exact ⟨⟨s, hs, hname⟩, x, h⟩

/-- Where a greater depth reads no further struct from some bytes, it reads nothing else from them. -/
theorem Sound.below_of_readable (hc : c.Sound) {bytes : Bytes} {n n' : Nat} (h : n ≤ n')
    (heq : c.readable bytes n' ⊆ c.readable bytes n) {cursor : Cursor}
    (hcursor : cursor.rest = bytes) (name : String) :
    Below (c.decodeAt n' name cursor) (c.decodeAt n name cursor) := by
  refine hc.decodeAt_shift (fun x hx => ?_) hcursor
  have hmem := heq (hc.mem_readable hx)
  simp only [readable, Finset.mem_filter] at hmem
  obtain ⟨-, y, hy⟩ := hmem
  have hxy := hc.decodeAt_below h name _ y hy
  rw [hx] at hxy
  rw [hy, Except.ok.inj hxy]

/-- Every record that is read within any depth is read within the one that a decoder takes. -/
theorem Sound.decodeAt_below_depthIn (hc : c.Sound) (n : Nat) (name : String) (cursor : Cursor) :
    Below (c.decodeAt n name cursor) (c.decodeAt (c.depthIn cursor.remaining) name cursor) := by
  suffices h : ∀ len, ∀ bytes : Bytes, bytes.length = len → ∀ n name cursor,
      cursor.rest = bytes →
        Below (c.decodeAt n name cursor) (c.decodeAt (c.depthIn len) name cursor) from
    h _ cursor.rest rfl n name cursor rfl
  intro len
  induction len using Nat.strong_induction_on with
  | _ len ih =>
    intro bytes hbytes n name cursor hcursor
    have hdepth : c.depthIn len =
        len * c.schema.structs.length + 1 + c.schema.structs.length := by
      unfold depthIn
      rw [Nat.add_mul, Nat.one_mul]
      omega
    generalize hk : len * c.schema.structs.length + 1 = k at hdepth
    -- fewer bytes need no more depth than `k`
    have hshort : ∀ n cursor', cursor'.rest.length < len → ∀ name,
        Below (c.decodeAt n name cursor') (c.decodeAt k name cursor') := by
      intro n cursor' hlt name
      refine (ih _ hlt cursor'.rest rfl n name cursor' rfl).trans (hc.decodeAt_below ?_ name cursor')
      rw [← hk]
      unfold depthIn
      exact Nat.succ_le_succ (Nat.mul_le_mul_right _ hlt)
    have hstable : ∀ i, (c.readable bytes (k + i)).card = (c.readable bytes (k + (i + 1))).card →
        (c.readable bytes (k + (i + 1))).card = (c.readable bytes (k + (i + 2))).card := by
      intro i hcard
      have hsub : c.readable bytes (k + i) ⊆ c.readable bytes (k + (i + 1)) :=
        hc.readable_mono bytes (by omega)
      have heq := Finset.eq_of_subset_of_card_le hsub (Nat.le_of_eq hcard.symm)
      have hon : (c.decodeAt (k + (i + 1))).BelowOn (fun a => a.Within bytes)
          (c.decodeAt (k + i)) := by
        rintro name cursor' (hlt | hrest)
        · exact (hshort _ cursor' (hbytes ▸ hlt) name).trans (hc.decodeAt_below (by omega) name _)
        · exact hc.below_of_readable (by omega) (Finset.subset_of_eq heq.symm) hrest name
      refine congrArg _ (Finset.Subset.antisymm (hc.readable_mono bytes (by omega)) ?_)
      intro name hname
      simp only [readable, Finset.mem_filter] at hname ⊢
      obtain ⟨hmem, x, hx⟩ := hname
      exact ⟨hmem, x, decodeAt_succ_below (Bytes.within_closed bytes) hc hon name _ (Or.inr rfl) x hx⟩
    rw [hdepth]
    rcases Nat.le_total n (k + c.schema.structs.length) with hle | hle
    · exact hc.decodeAt_below hle name cursor
    · refine hc.below_of_readable hle ?_ hcursor name
      obtain ⟨j, rfl⟩ := Nat.exists_eq_add_of_le (Nat.le_trans (Nat.le_add_right k _) hle)
      have hmono : Monotone fun i => (c.readable bytes (k + i)).card := fun i i' hi =>
        Finset.card_le_card (hc.readable_mono bytes (by omega))
      have hj : c.schema.structs.length ≤ j := by omega
      have hcard := Nat.stabilises_of_monotone hmono (fun i => c.card_readable_le bytes _) hstable hj
      exact Finset.subset_of_eq (Finset.eq_of_subset_of_card_le
        (hc.readable_mono bytes hle) (Nat.le_of_eq hcard)).symm

/-- A decoder reads every record that is read within some depth. -/
theorem Sound.decoder_of_decodeAt (hc : c.Sound) {n : Nat} {name : String} {cursor : Cursor}
    {x : Record × Cursor} (h : c.decodeAt n name cursor = .ok x) : c.decoder name cursor = .ok x :=
  hc.decodeAt_below_depthIn n name cursor x h

/-- What a decoder reads depends on the bytes that it takes. -/
theorem Sound.decoder_steady (hc : c.Sound) : c.decoder.Steady c.schema.Delimited := by
  intro name cursor r cursor' h
  obtain ⟨used, hused, hsame⟩ := hc.decodeAt_steady _ name cursor r cursor' h
  exact ⟨used, hused, fun d d' hd htail => hc.decoder_of_decodeAt (hsame d d' hd htail)⟩

/-- A struct is read once its steps are done with the decoder itself. -/
theorem Sound.decoder_of_steps (hc : c.Sound) {name : String} {s : Struct} {plan : Plan}
    (hl : c.lookup name = .ok (s, plan)) {cursor : Cursor} {p : Progress}
    (h : plan.decode.foldlM (c.readStep c.decoder s plan) (Progress.start s name cursor) = .ok p) :
    c.decoder name cursor = .ok (p.record, p.cursor) := by
  have hkind : ClosedUnderParts fun bytes => bytes.length ≤ cursor.remaining := by
    intro a b hab
    rw [List.length_append] at hab
    omega
  -- no part has more bytes ahead than the struct, so one depth suffices for all
  have hbelow : c.decoder.BelowOn (fun bytes => bytes.length ≤ cursor.remaining)
      (c.decodeAt (c.depthIn cursor.remaining)) := by
    intro name' cursor' hle
    refine hc.decodeAt_below (Nat.succ_le_succ (Nat.mul_le_mul_right _ (Nat.succ_le_succ ?_))) _ _
    exact hle
  have hsteps := readSteps_related Below.sequential hkind hc.decoder_steady hbelow s plan plan.decode
    (inside_start s name (Nat.le_refl cursor.remaining)) p h
  have hread : c.decodeAt (c.depthIn cursor.remaining + 1) name cursor =
      .ok (p.record, p.cursor) := by
    simp only [decodeAt, bind_eq_ok]
    exact ⟨(s, plan), hl, p, hsteps, rfl⟩
  exact hc.decoder_of_decodeAt hread

end Codec

end WireLayout
