import Mathlib.Logic.Relation
import WireLayout.Proofs.Layout
import WireLayout.Proofs.Steps
import WireLayout.Proofs.Values
import WireLayout.Proofs.Wire

/-!
# Reading depends on the bytes that are taken

A read that succeeds takes some of the bytes ahead, and it succeeds in the same way wherever these
bytes lie ahead with the same bytes behind them. If nothing in the struct goes on to the end of the
buffer, it does not even matter what lies behind them.
-/

namespace WireLayout

/-! ## Structs that other structs refer to -/

/-- Whether a field brings the struct of a name into a message: as its type, as the type of its
elements, or, for polymorphic elements, as their header or as one of the structs of their group. -/
def Codec.FieldRefers (c : Codec) (s : Struct) (f : Field) (name : String) : Prop :=
  match f.disposition with
  | .const _ => False
  | .arraySized layout => name = layout.binding.header ∨
      ∃ group version id, c.schema.arrayGroup s f layout.binding = .ok group ∧
        c.dispatch.resolve? group version id = some name
  | _ => name = f.typeName

/-- Whether a field of the first struct brings the second one into a message. -/
def Codec.Refers (c : Codec) (owner name : String) : Prop :=
  ∃ s, c.schema.struct? owner = some s ∧ ∃ f ∈ s.fields, c.FieldRefers s f name

/-- Whether a struct has an array that goes on to the end of the buffer. -/
def Schema.DeclaresFill (schema : Schema) (name : String) : Prop :=
  ∃ s, schema.struct? name = some s ∧ ∃ f ∈ s.fields, f.disposition = .arrayFill

/-- Whether neither a struct nor any that it refers to has such an array. -/
def Codec.FillFree (c : Codec) (name : String) : Prop :=
  ∀ other, Relation.ReflTransGen c.Refers name other → ¬ c.schema.DeclaresFill other

/-- A field brings the struct of its type into a message, unless it is a constant or a region. -/
theorem Codec.refers_of_field {c : Codec} {owner : String} {s : Struct}
    (hs : c.schema.struct? owner = some s) {f : Field} (hf : f ∈ s.fields)
    (hconst : f.isConst = false) (hsized : f.sizedArray? = none) : c.Refers owner f.typeName := by
  refine ⟨s, hs, f, hf, ?_⟩
  unfold FieldRefers
  cases hd : f.disposition with
  | const v => simp [Field.isConst, hd, Disposition.role] at hconst
  | arraySized layout => simp [Field.sizedArray?, hd] at hsized
  | _ => rfl

/-- A field that is no region brings at most the struct of its type into a message. -/
theorem Codec.FieldRefers.eq_typeName {c : Codec} {s : Struct} {f : Field} {name : String}
    (h : c.FieldRefers s f name) (hsized : f.sizedArray? = none) : name = f.typeName := by
  unfold FieldRefers at h
  cases hd : f.disposition with
  | const v => simp [hd] at h
  | arraySized layout => simp [Field.sizedArray?, hd] at hsized
  | _ => simpa [hd] using h

theorem Codec.FillFree.of_refers {c : Codec} {owner name : String} (h : c.FillFree owner)
    (hr : c.Refers owner name) : c.FillFree name :=
  fun other ho => h other (Relation.ReflTransGen.head hr ho)

/-- Whether a field of the first struct holds values of the second one in its own place: a plain or
inline field, or a counted array. -/
def Schema.Holds (schema : Schema) (owner name : String) : Prop :=
  ∃ s, schema.struct? owner = some s ∧ ∃ f ∈ s.fields, f.typeName = name ∧
    (f.isStored = true ∨ ∃ count, f.disposition = .array count)

/-- Whether neither a struct nor any that it holds goes on to the end of the buffer. What lies in a
region does not count: the region has an end of its own. -/
def Schema.Delimited (schema : Schema) (name : String) : Prop :=
  ∀ other, Relation.ReflTransGen schema.Holds name other → ¬ schema.DeclaresFill other

theorem Schema.Delimited.of_holds {schema : Schema} {owner name : String}
    (h : schema.Delimited owner) (hn : schema.Holds owner name) : schema.Delimited name :=
  fun other ho => h other (Relation.ReflTransGen.head hn ho)

theorem Codec.FillFree.delimited {c : Codec} {name : String} (h : c.FillFree name) :
    c.schema.Delimited name := by
  intro other hother
  refine h other (Relation.ReflTransGen.mono ?_ name other hother)
  rintro owner - ⟨s, hs, f, hf, rfl, hd⟩
  refine ⟨s, hs, f, hf, ?_⟩
  unfold FieldRefers
  rcases hd with hstored | ⟨count, hd⟩
  · rcases Field.disposition_of_isStored hstored with hd | hd <;> rw [hd]
  · rw [hd]

/-! ## Steady reads -/

/-- Whether a read succeeds in the same way wherever the bytes that it took lie ahead and the same
bytes lie behind them or, given `free`, any bytes. -/
def Steady {α : Type} (free : Prop) (read : Cursor → Except CodecError (α × Cursor)) : Prop :=
  ∀ c a c', read c = .ok (a, c') → ∃ used, c.Reads used c' ∧
    ∀ d d', d.Reads used d' → (d'.rest = c'.rest ∨ free) → read d = .ok (a, d')

/-- A read of two parts of the bytes passes the place between them. -/
theorem Cursor.Reads.split {c c' : Cursor} {used more : Bytes} (h : c.Reads (used ++ more) c') :
    ∃ m, c.Reads used m ∧ m.Reads more c' := by
  refine ⟨{ offset := c.offset + used.length, rest := more ++ c'.rest }, ⟨?_, rfl⟩, ⟨rfl, ?_⟩⟩
  · rw [h.rest, List.append_assoc]
  · rw [h.offset, List.length_append, Nat.add_assoc]

theorem Cursor.Reads.eq_of_nil {c c' : Cursor} (h : c.Reads [] c') : c' = c :=
  h.unique (Cursor.Reads.refl c)

namespace Steady

variable {α β : Type} {free : Prop}

theorem weaken {free' : Prop} {read : Cursor → Except CodecError (α × Cursor)}
    (h : Steady free read) (hfree : free' → free) : Steady free' read := by
  intro c a c' hread
  obtain ⟨used, hused, hsame⟩ := h c a c' hread
  exact ⟨used, hused, fun d d' hd htail => hsame d d' hd (htail.imp id hfree)⟩

theorem take (len : Nat) : Steady free (Cursor.take · len) := by
  intro c front c' h
  obtain ⟨hreads, rfl⟩ := Cursor.reads_of_take h
  exact ⟨front, hreads, fun d d' hd _ => Cursor.take_of_reads hd⟩

theorem map {read : Cursor → Except CodecError (α × Cursor)} (h : Steady free read) (f : α → β) :
    Steady free fun c => (read c).map fun p => (f p.1, p.2) := by
  intro c b c' hread
  obtain ⟨⟨a, m⟩, ha, hb⟩ := map_eq_ok.mp hread
  cases hb
  obtain ⟨used, hused, hsame⟩ := h c a m ha
  exact ⟨used, hused, fun d d' hd htail => map_eq_ok.mpr ⟨_, hsame d d' hd htail, rfl⟩⟩

/-- Two reads, one after the other. -/
theorem seq {read : Cursor → Except CodecError (α × Cursor)}
    {next : α → Cursor → Except CodecError (β × Cursor)} (h : Steady free read)
    (hnext : ∀ a, Steady free (next a)) : Steady free fun c => read c >>= fun p => next p.1 p.2 := by
  intro c b c'' hread
  obtain ⟨⟨a, c'⟩, ha, hb⟩ := bind_eq_ok.mp hread
  obtain ⟨used, hused, hsame⟩ := h c a c' ha
  obtain ⟨more, hmore, hsame'⟩ := hnext a c' b c'' hb
  refine ⟨used ++ more, hused.trans hmore, fun d d'' hd htail => ?_⟩
  obtain ⟨d', hd', hd''⟩ := hd.split
  refine bind_eq_ok.mpr ⟨(a, d'), hsame d d' hd' ?_, hsame' d' d'' hd'' htail⟩
  exact htail.imp (fun ht => by rw [hd''.rest, hmore.rest, ht]) id

theorem pure (a : α) : Steady free fun c => .ok (a, c) := by
  intro c b c' h
  cases h
  exact ⟨[], Cursor.Reads.refl _, fun d d' hd _ => by rw [hd.eq_of_nil]⟩

theorem error (e : CodecError) :
    Steady free fun _ => (.error e : Except CodecError (α × Cursor)) :=
  fun _ _ _ h => by cases h

theorem readLeaf (leaf : Leaf) : Steady free leaf.read := by
  cases hform : leaf.form with
  | int t =>
    have h : leaf.read = fun c => (c.takeInt t).map fun p => (Value.int p.1, p.2) := by
      funext c
      simp only [Leaf.read, hform]
    rw [h]
    exact ((take t.bytes).map t.ofBytes).map Value.int
  | bytes len =>
    have h : leaf.read = fun c => (c.take len).map fun p => (Value.bytes p.1, p.2) := by
      funext c
      simp only [Leaf.read, hform]
    rw [h]
    exact (take len).map Value.bytes

theorem readInt (leaf : Leaf) (field : String) : Steady free (leaf.readInt field) := by
  cases hform : leaf.form with
  | int t =>
    have h : leaf.readInt field = fun c => c.takeInt t := by
      funext c
      simp only [Leaf.readInt, hform]
    rw [h]
    exact (take t.bytes).map t.ofBytes
  | bytes len =>
    have h : leaf.readInt field = fun _ => .error (.typeMismatch field .int .bytes) := by
      funext c
      simp only [Leaf.readInt, hform]
    rw [h]
    exact error _

end Steady

/-- Whether every read of a struct is steady. -/
def Decoder.Steady (free : String → Prop) (decoder : Decoder) : Prop :=
  ∀ name, WireLayout.Steady (free name) (decoder name)

section Elements

variable {free : String → Prop} {decoder : Decoder}

theorem Element.read_steady (h : decoder.Steady free) {element : Element} {here : Prop}
    (hfree : ∀ ty, element = .struct ty → here → free ty) :
    Steady here fun c => element.read decoder c := by
  cases element with
  | leaf l => exact Steady.readLeaf l
  | struct ty => exact ((h ty).weaken (hfree ty rfl)).map Record.toValue

theorem readCounted_steady (h : decoder.Steady free) {element : Element} {here : Prop}
    (hfree : ∀ ty, element = .struct ty → here → free ty) (count : Nat) :
    Steady here (readCounted decoder element count) := by
  induction count with
  | zero => exact Steady.pure []
  | succ count ih =>
    exact (Element.read_steady h hfree).seq fun v => ih.seq fun vs => Steady.pure (v :: vs)

theorem readToEnd_nil (field : String) {read : Cursor → Except CodecError (Value × Cursor)}
    {rounds : Nat} {cursor : Cursor} (h : cursor.rest = []) :
    readToEnd field read rounds cursor = .ok ([], cursor) := by
  unfold readToEnd
  rw [h]
  rfl

/-- A round of a loop that goes on to the end of the bytes. -/
theorem readToEnd_step (field : String) {read : Cursor → Except CodecError (Value × Cursor)}
    {rounds : Nat} {cursor next : Cursor} {v : Value} (h : cursor.rest ≠ [])
    (hv : read cursor = .ok (v, next)) (hmoved : next.offset ≠ cursor.offset) :
    readToEnd field read (rounds + 1) cursor =
      (readToEnd field read rounds next).map fun p => (v :: p.1, p.2) := by
  have hempty : ¬ cursor.rest.isEmpty = true := fun hnil => h (List.isEmpty_iff.mp hnil)
  rw [readToEnd, if_neg hempty]
  simp only [hv, ok_bind, if_neg hmoved]
  cases readToEnd field read rounds next <;> rfl

/-- A loop that goes on to the end of the bytes may start at another offset. -/
theorem readToEnd_steady {read : Cursor → Except CodecError (Value × Cursor)}
    (h : Steady False read) (field : String) (rounds : Nat) :
    Steady False (readToEnd field read rounds) := by
  induction rounds with
  | zero =>
    intro c items c' hread
    unfold readToEnd at hread
    split at hread
    · rename_i hempty
      cases hread
      refine ⟨[], Cursor.Reads.refl c, fun d d' hd htail => ?_⟩
      have hrest : d.rest = c.rest := by rw [← hd.eq_of_nil, htail.resolve_right id]
      unfold readToEnd
      rw [hrest, if_pos hempty, hd.eq_of_nil]
    · cases hread
  | succ rounds ih =>
    intro c items c'' hread
    unfold readToEnd at hread
    split at hread
    · rename_i hempty
      cases hread
      refine ⟨[], Cursor.Reads.refl c, fun d d' hd htail => ?_⟩
      have hrest : d.rest = c.rest := by rw [← hd.eq_of_nil, htail.resolve_right id]
      unfold readToEnd
      rw [hrest, if_pos hempty, hd.eq_of_nil]
    · rename_i hempty
      obtain ⟨⟨v, c'⟩, hv, hread⟩ := bind_eq_ok.mp hread
      dsimp only at hread
      split at hread
      · cases hread
      rename_i hprogress
      obtain ⟨⟨vs, m⟩, hvs, hread⟩ := bind_eq_ok.mp hread
      cases hread
      obtain ⟨used, hused, hsame⟩ := h c v c' hv
      obtain ⟨more, hmore, hsame'⟩ := ih c' vs m hvs
      refine ⟨used ++ more, hused.trans hmore, fun d d'' hd htail => ?_⟩
      obtain ⟨d', hd', hd''⟩ := hd.split
      have htail' : d'.rest = c'.rest := by rw [hd''.rest, hmore.rest, htail.resolve_right id]
      have hrest : d.rest = c.rest := by rw [hd'.rest, hused.rest, htail']
      have hmoved : d'.offset ≠ d.offset := by
        rw [hused.offset] at hprogress
        rw [hd'.offset]
        omega
      unfold readToEnd
      rw [hrest, if_neg hempty]
      refine bind_eq_ok.mpr ⟨(v, d'), hsame d d' hd' (Or.inl htail'), ?_⟩
      dsimp only
      rw [if_neg hmoved]
      exact bind_eq_ok.mpr ⟨(vs, d''), hsame' d' d'' hd'' htail, rfl⟩

end Elements

/-! ## Steady steps -/

/-- As `Steady`, for a step of a struct that is being read. -/
def Progress.Steady (free : Prop) (step : Progress → Except CodecError Progress) : Prop :=
  ∀ p p', step p = .ok p' → ∃ used, p.cursor.Reads used p'.cursor ∧
    ∀ d d', d.Reads used d' → (d'.rest = p'.cursor.rest ∨ free) →
      step (p.moveTo d) = .ok (p'.moveTo d')

namespace Progress.Steady

variable {free : Prop}

/-- A step that keeps what it read. -/
theorem of_read {α : Type} {read : Cursor → Except CodecError (α × Cursor)}
    (h : WireLayout.Steady free read) (keep : Progress → α → Progress)
    (hkeep : ∀ p a d, keep (p.moveTo d) a = (keep p a).moveTo d) :
    Progress.Steady free fun p => read p.cursor >>= fun q => .ok ((keep p q.1).moveTo q.2) := by
  intro p p' hp
  obtain ⟨⟨a, c'⟩, ha, hp⟩ := bind_eq_ok.mp hp
  cases hp
  obtain ⟨used, hused, hsame⟩ := h _ a c' ha
  refine ⟨used, hused, fun d d' hd htail => ?_⟩
  refine bind_eq_ok.mpr ⟨(a, d'), hsame d d' hd htail, ?_⟩
  dsimp only
  rw [hkeep]
  rfl

/-- A step that takes nothing and looks at nothing ahead. -/
theorem of_stationary {step : Progress → Except CodecError Progress}
    (hcursor : ∀ p p', step p = .ok p' → p'.cursor = p.cursor)
    (hmove : ∀ p p' d, step p = .ok p' → step (p.moveTo d) = .ok (p'.moveTo d)) :
    Progress.Steady free step := by
  intro p p' hp
  refine ⟨[], by rw [hcursor p p' hp]; exact Cursor.Reads.refl _, fun d d' hd _ => ?_⟩
  rw [hd.eq_of_nil]
  exact hmove p p' d hp

theorem foldlM {σ : Type} {step : Progress → σ → Except CodecError Progress} {l : List σ}
    (h : ∀ x ∈ l, Progress.Steady free fun p => step p x) :
    Progress.Steady free fun p => l.foldlM step p := by
  induction l with
  | nil =>
    intro p p' hp
    obtain rfl := pure_eq_ok.mp hp
    exact ⟨[], Cursor.Reads.refl _, fun d d' hd _ => by rw [hd.eq_of_nil]; rfl⟩
  | cons x l ih =>
    intro p p'' hp
    simp only [List.foldlM_cons, bind_eq_ok] at hp
    obtain ⟨p', hp', hp''⟩ := hp
    obtain ⟨used, hused, hsame⟩ := h x (by simp) p p' hp'
    obtain ⟨more, hmore, hsame'⟩ := ih (fun y hy => h y (List.mem_cons_of_mem _ hy)) p' p'' hp''
    refine ⟨used ++ more, hused.trans hmore, fun d d'' hd htail => ?_⟩
    obtain ⟨d', hd', hd''⟩ := hd.split
    simp only [List.foldlM_cons, bind_eq_ok]
    refine ⟨_, hsame d d' hd' ?_, hsame' d' d'' hd'' htail⟩
    exact htail.imp (fun ht => by rw [hd''.rest, hmore.rest, ht]) id

end Progress.Steady

/-- Finding out which member a union holds takes nothing. -/
theorem Codec.cursor_of_readUnion {decoder : Decoder} {owner : String} {raw : Bytes} {p p' : Progress}
    {members : List UnionMember} (h : Codec.readUnion decoder owner raw p members = .ok p') :
    p'.cursor = p.cursor ∧
      ∀ d, Codec.readUnion decoder owner raw (p.moveTo d) members = .ok (p'.moveTo d) := by
  induction members with
  | nil =>
    cases h
    exact ⟨rfl, fun _ => rfl⟩
  | cons m rest ih =>
    unfold Codec.readUnion at h
    obtain ⟨tested, htested, h⟩ := bind_eq_ok.mp h
    split at h
    · rename_i hholds
      obtain ⟨⟨v, c'⟩, hv, h⟩ := bind_eq_ok.mp h
      cases h
      refine ⟨p.cursor_noteValue _ _, fun d => ?_⟩
      unfold Codec.readUnion
      refine bind_eq_ok.mpr ⟨tested, htested, ?_⟩
      rw [if_pos hholds]
      refine bind_eq_ok.mpr ⟨(v, c'), hv, ?_⟩
      dsimp only
      rw [Progress.noteValue_moveTo]
      rfl
    · rename_i hholds
      obtain ⟨hcursor, hmove⟩ := ih h
      refine ⟨hcursor, fun d => ?_⟩
      unfold Codec.readUnion
      refine bind_eq_ok.mpr ⟨tested, htested, ?_⟩
      rw [if_neg hholds]
      exact hmove d

/-- Whether the structs that an operation reads from the cursor satisfy `free`, and it does not go on
to the end of the buffer. -/
def DecodeOp.Free (free : String → Prop) : DecodeOp → Prop
  | .nested ty _ => free ty
  | .array (.struct ty) _ => free ty
  | .fill _ => False
  | _ => True

namespace Codec

variable {c : Codec} {free : String → Prop} {decoder : Decoder}

theorem readOp_steady (h : decoder.Steady free) (s : Struct) (plan : Plan) (field : String)
    {here : Prop} {op : DecodeOp} (hop : here → op.Free free) :
    Progress.Steady here fun p => c.readOp decoder s plan field p op := by
  cases op with
  | leaf l =>
    refine Progress.Steady.of_read (Steady.readLeaf l)
      (fun p v => (p.noteValue field v).store field v) fun p v d => ?_
    rw [Progress.noteValue_moveTo]
    rfl
  | length l =>
    exact Progress.Steady.of_read (Steady.readInt l field) (fun p n => p.note field n)
      fun _ _ _ => rfl
  | nested ty isInline =>
    exact Progress.Steady.of_read ((h ty).weaken hop) (fun p r => p.store field r.toValue)
      fun _ _ _ => rfl
  | reserved l expect =>
    have hread : Steady here (l.readInt field) := Steady.readInt l field
    cases expect with
    | none => exact Progress.Steady.of_read hread (fun p n => p.note field n) fun _ _ _ => rfl
    | some expected =>
      intro p p' hp
      simp only [readOp, bind_eq_ok] at hp
      obtain ⟨⟨found, c'⟩, hfound, u, hcheck, hp⟩ := hp
      cases hp
      obtain ⟨used, hused, hsame⟩ := hread _ found c' hfound
      refine ⟨used, hused, fun d d' hd htail => ?_⟩
      simp only [readOp, bind_eq_ok]
      exact ⟨(found, d'), hsame d d' hd htail, u, hcheck, rfl⟩
  | checkSizeOf reserved target =>
    have key : ∀ p p', c.readOp decoder s plan field p (.checkSizeOf reserved target) = .ok p' →
        p' = p := by
      intro p p' hp
      simp only [readOp, bind_eq_ok] at hp
      obtain ⟨found, -, size, -, u, -, hp⟩ := hp
      exact (Except.ok.inj hp).symm
    refine Progress.Steady.of_stationary (fun p p' hp => by rw [key p p' hp]) fun p p' d hp => ?_
    obtain rfl := key p p' hp
    simp only [readOp, bind_eq_ok] at hp ⊢
    obtain ⟨found, hfound, size, hsize, u, hu, -⟩ := hp
    exact ⟨found, hfound, size, hsize, u, hu, trivial⟩
  | array element count =>
    intro p p' hp
    simp only [readOp, bind_eq_ok] at hp
    obtain ⟨n, hn, ⟨items, c'⟩, hitems, hp⟩ := hp
    cases hp
    have hfree : ∀ ty, element = .struct ty → here → free ty := by
      rintro ty rfl hh
      exact hop hh
    obtain ⟨used, hused, hsame⟩ := readCounted_steady h hfree n _ items c' hitems
    refine ⟨used, hused, fun d d' hd htail => ?_⟩
    simp only [readOp, bind_eq_ok]
    refine ⟨n, ?_, (items, d'), hsame d d' hd htail, rfl⟩
    cases count <;> exact hn
  | arraySized layout group =>
    intro p p' hp
    simp only [readOp, bind_eq_ok] at hp
    obtain ⟨declared, hdeclared, len, hlen, ⟨region, c'⟩, hregion, ⟨items, m⟩, hitems, hp⟩ := hp
    cases hp
    obtain ⟨⟨front, m'⟩, htake, hm⟩ := map_eq_ok.mp hregion
    cases hm
    obtain ⟨hused, hfront⟩ := Cursor.reads_of_take htake
    refine ⟨front, hused, fun d d' hd htail => ?_⟩
    simp only [readOp, bind_eq_ok]
    refine ⟨declared, hdeclared, len, hlen, (Cursor.start front, d'), ?_, (items, m), hitems, rfl⟩
    exact map_eq_ok.mpr ⟨(front, d'), hfront ▸ Cursor.take_of_reads hd, rfl⟩
  | fill element =>
    intro p p' hp
    simp only [readOp, bind_eq_ok] at hp
    obtain ⟨⟨items, c'⟩, hitems, hp⟩ := hp
    cases hp
    have hread : Steady False fun here => element.read decoder here :=
      Element.read_steady h fun _ _ hf => hf.elim
    obtain ⟨used, hused, hsame⟩ := readToEnd_steady hread field _ _ items c' hitems
    refine ⟨used, hused, fun d d' hd htail => ?_⟩
    have htail' : d'.rest = c'.rest := htail.resolve_right hop
    have hrest : d.rest = p.cursor.rest := by rw [hd.rest, htail', hused.rest]
    simp only [readOp, bind_eq_ok]
    refine ⟨(items, d'), ?_, rfl⟩
    have hrounds : (p.moveTo d).cursor.remaining = p.cursor.remaining :=
      congrArg List.length hrest
    rw [hrounds]
    exact hsame d d' hd (Or.inl htail')
  | union size =>
    intro p p' hp
    simp only [readOp, bind_eq_ok] at hp
    obtain ⟨⟨raw, c'⟩, htake, hp⟩ := hp
    cases hp
    obtain ⟨hused, rfl⟩ := Cursor.reads_of_take htake
    refine ⟨raw, hused, fun d d' hd _ => ?_⟩
    simp only [readOp, bind_eq_ok]
    exact ⟨(raw, d'), Cursor.take_of_reads hd, rfl⟩
  | resolveUnion members =>
    have key : ∀ p p', c.readOp decoder s plan field p (.resolveUnion members) = .ok p' →
        ∃ raw, p.slot s.name field = .ok raw ∧ readUnion decoder s.name raw p members = .ok p' :=
      fun p p' hp => bind_eq_ok.mp hp
    refine Progress.Steady.of_stationary (fun p p' hp => ?_) fun p p' d hp => ?_
    · obtain ⟨raw, -, hp⟩ := key p p' hp
      exact (cursor_of_readUnion hp).1
    · obtain ⟨raw, hraw, hp⟩ := key p p' hp
      exact bind_eq_ok.mpr ⟨raw, hraw, (cursor_of_readUnion hp).2 d⟩

theorem readStep_steady (h : decoder.Steady free) (s : Struct) (plan : Plan) {here : Prop}
    {step : Step DecodeOp} (hop : here → step.op.Free free) :
    Progress.Steady here fun p => c.readStep decoder s plan p step := by
  intro p p' hp
  simp only [readStep, bind_eq_ok] at hp
  obtain ⟨b, hb, hp⟩ := hp
  cases b with
  | false =>
    cases hp
    refine ⟨[], Cursor.Reads.refl _, fun d d' hd _ => ?_⟩
    rw [hd.eq_of_nil]
    exact bind_eq_ok.mpr ⟨false, hb, rfl⟩
  | true =>
    obtain ⟨used, hused, hsame⟩ := readOp_steady h s plan step.field hop p p' hp
    exact ⟨used, hused, fun d d' hd htail => bind_eq_ok.mpr ⟨true, hb, hsame d d' hd htail⟩⟩

end Codec

/-! ## Structs -/

/-- The step that finds out which member a slot holds. -/
def Struct.resolveStep (slot : UnionSlot) : Step DecodeOp :=
  { field := slot.name, role := .union, guard := none, op := .resolveUnion slot.members }

/-- The step that compares the size that a field promises. -/
def Field.checkStep (f : Field) (target : String) : Step DecodeOp :=
  { field := f.name, role := .reserved, guard := f.condition, op := .checkSizeOf f.name target }

/-- A step that reads a struct is the step of an entry, or looks back. -/
theorem Struct.mem_decodeSteps {s : Struct} {slots : List UnionSlot}
    {entries : List (Option WireEntry)} {step : Step DecodeOp}
    (h : step ∈ s.decodeSteps slots entries) :
    (∃ e ∈ entries.filterMap id, step = e.step (e.decodeOp s)) ∨
      ∃ position, step ∈ s.deferredAt slots position := by
  obtain ⟨⟨e, i⟩, hmem, hstep⟩ := List.mem_flatMap.mp h
  rcases List.mem_append.mp hstep with hstep | hstep
  · obtain ⟨e', he', rfl⟩ := Option.map_eq_some_iff.mp (Option.mem_toList.mp hstep)
    subst he'
    have he : some e' ∈ entries := by
      obtain ⟨-, -, hget⟩ := List.mem_zipIdx hmem
      exact hget ▸ List.getElem_mem _
    exact Or.inl ⟨e', List.mem_filterMap.mpr ⟨_, he, rfl⟩, rfl⟩
  · exact Or.inr ⟨i, hstep⟩

/-- A step that looks back finds out which member a slot holds, or compares a size. -/
theorem Struct.mem_deferredAt {s : Struct} {slots : List UnionSlot} {position : Nat}
    {step : Step DecodeOp} :
    step ∈ s.deferredAt slots position ↔
      (position, step) ∈ s.resolveSteps slots ∨ (position, step) ∈ s.sizeOfSteps slots := by
  unfold deferredAt
  simp only [List.mem_map, List.mem_filter, List.mem_append, beq_iff_eq, Prod.exists]
  constructor
  · rintro ⟨i, step', ⟨h, hi⟩, hstep⟩
    obtain rfl : i = position := hi
    obtain rfl : step' = step := hstep
    exact h
  · intro h
    exact ⟨position, step, ⟨h, rfl⟩, rfl⟩

theorem Struct.exists_of_mem_sizeOfSteps {s : Struct} {slots : List UnionSlot}
    {p : Nat × Step DecodeOp} (h : p ∈ s.sizeOfSteps slots) :
    ∃ (i : Nat) (f : Field) (target : String), s.fields[i]? = some f ∧
      f.sizeOfTarget? = some target ∧
      p = (max i (s.targetReady slots target i), f.checkStep target) := by
  obtain ⟨⟨f, i⟩, hf, h⟩ := List.mem_filterMap.mp h
  obtain ⟨target, htarget, heq⟩ := Option.map_eq_some_iff.mp h
  exact ⟨i, f, target, List.mem_zipIdx_iff_getElem?.mp hf, htarget, heq.symm⟩

/-- Each step that looks back from a place is that of a slot, or of a promised size. -/
theorem Struct.deferredAt_cases {s : Struct} {slots : List UnionSlot} {place : Nat}
    {step : Step DecodeOp} (h : step ∈ s.deferredAt slots place) :
    (∃ slot ∈ slots, s.slotReady slot = place ∧ step = resolveStep slot) ∨
      ∃ (i : Nat) (f : Field) (target : String), s.fields[i]? = some f ∧
        f.sizeOfTarget? = some target ∧ max i (s.targetReady slots target i) = place ∧
        step = f.checkStep target := by
  rcases mem_deferredAt.mp h with h | h
  · obtain ⟨slot, hslot, heq⟩ := List.mem_map.mp h
    obtain ⟨hplace, hstep⟩ := Prod.mk.inj heq
    exact Or.inl ⟨slot, hslot, hplace, hstep.symm⟩
  · obtain ⟨i, f, target, hf, htarget, heq⟩ := exists_of_mem_sizeOfSteps h
    obtain ⟨hplace, hstep⟩ := Prod.mk.inj heq
    exact Or.inr ⟨i, f, target, hf, htarget, hplace.symm, hstep⟩

namespace Codec

variable {c : Codec}

/-- What a delimited struct reads in its own place are delimited structs. -/
theorem Sound.free_of_delimited (hc : c.Sound) {name : String} {s : Struct} {plan : Plan}
    (hl : c.lookup name = .ok (s, plan)) {step : Step DecodeOp} (hstep : step ∈ plan.decode)
    (hfree : c.schema.Delimited name) : step.op.Free c.schema.Delimited := by
  obtain ⟨hstruct, hs, -, -, -, slots, entries, hp⟩ := hc.planned_of_lookup hl
  have hholds : ∀ f ∈ s.fields, (f.isStored = true ∨ ∃ count, f.disposition = .array count) →
      c.schema.Delimited f.typeName := fun f hf hd =>
    hfree.of_holds ⟨s, hstruct, f, hf, rfl, hd⟩
  rw [hp.decode] at hstep
  rcases Struct.mem_decodeSteps hstep with ⟨e, he, rfl⟩ | ⟨i, hstep⟩
  · obtain ⟨i, f, hf, hentry⟩ := hp.exists_of_mem he
    have hf := List.mem_of_getElem? hf
    cases hentry with
    | slot hslot hpos hname => exact trivial
    | own hconst hunion hshape =>
      cases hshape with
      | leaf hstored hform =>
        simp only [WireEntry.step, WireEntry.decodeOp]
        split <;> exact trivial
      | nested hstored hform hstruct' =>
        exact hholds f hf (Or.inl hstored)
      | reserved hd hform => exact trivial
      | @array element count hd helem =>
        cases helem with
        | leaf _ => exact trivial
        | struct _ _ => exact hholds f hf (Or.inr ⟨count, hd⟩)
      | arraySized hd hgroup => exact trivial
      | fill hd helem => exact hfree name .refl ⟨s, hstruct, f, hf, hd⟩
  · obtain ⟨slot, -, -, rfl⟩ | ⟨-, f, target, -, -, -, rfl⟩ := Struct.deferredAt_cases hstep
    · exact trivial
    · exact trivial

/-- Reading a struct depends on the bytes that it takes. -/
theorem Sound.decodeAt_steady (hc : c.Sound) (n : Nat) :
    (c.decodeAt n).Steady c.schema.Delimited := by
  induction n with
  | zero => exact fun name => Steady.error _
  | succ n ih =>
    intro name cursor r cursor' h
    simp only [decodeAt, bind_eq_ok] at h
    obtain ⟨⟨s, plan⟩, hl, p, hp, h⟩ := h
    cases h
    have hfold : Progress.Steady (c.schema.Delimited name) fun p =>
        plan.decode.foldlM (c.readStep (c.decodeAt n) s plan) p :=
      Progress.Steady.foldlM fun step hstep =>
        readStep_steady ih s plan fun hfree => hc.free_of_delimited hl hstep hfree
    obtain ⟨used, hused, hsame⟩ := hfold _ p hp
    refine ⟨used, hused, fun d d' hd htail => ?_⟩
    simp only [decodeAt, bind_eq_ok]
    exact ⟨(s, plan), hl, _, hsame d d' hd htail, rfl⟩

end Codec

end WireLayout
