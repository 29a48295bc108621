import WireLayout.Proofs.Complete
import WireLayout.Proofs.Places

/-!
# Runs of a reader

What is known after a struct was read: the states that the reader went through, place by place, and
how they are found again in the finished record. A value that was settled at a place is in the record,
an integer that was asked for is the one that is known at the end, and a union holds the first member
whose condition holds for that integer.
-/

namespace WireLayout

theorem length_of_readCounted {d : Decoder} {element : Element} {count : Nat} {cursor cursor' : Cursor}
    {items : List Value} (h : readCounted d element count cursor = .ok (items, cursor')) :
    items.length = count := by
  induction count generalizing cursor items with
  | zero => cases h; rfl
  | succ count ih =>
    simp only [readCounted, bind_eq_ok] at h
    obtain ⟨q, -, q', hrest, h⟩ := h
    cases h
    rw [List.length_cons, ih hrest]

/-- A field that counts the elements of arrays counts those of each that is there. -/
theorem Frame.liveLength_eq {frame : Frame} {arrays : List String} {n : Nat}
    (h : ∀ a ∈ arrays, frame.record.get? a = none ∨
      ∃ items, frame.record.get? a = some (.list items) ∧ items.length = n)
    (hone : ∃ a ∈ arrays, (frame.record.get? a).isSome = true) :
    frame.liveLength arrays = .ok n := by
  have key : ∀ (arrays : List String) (shared : Option Nat), (shared = none ∨ shared = some n) →
      (∀ a ∈ arrays, frame.record.get? a = none ∨
        ∃ items, frame.record.get? a = some (.list items) ∧ items.length = n) →
      (shared = some n ∨ ∃ a ∈ arrays, (frame.record.get? a).isSome = true) →
      frame.sharedLength shared arrays = .ok n := by
    intro arrays
    induction arrays with
    | nil =>
      intro shared _ _ hone
      rcases hone with rfl | ⟨a, ha, -⟩
      · rfl
      · cases ha
    | cons a rest ih =>
      intro shared hshared h hone
      have hrest : ∀ b ∈ rest, _ := fun b hb => h b (List.mem_cons_of_mem _ hb)
      rcases h a (by simp) with hget | ⟨items, hget, hlen⟩
      · have hone' : shared = some n ∨ ∃ b ∈ rest, (frame.record.get? b).isSome = true := by
          rcases hone with hs | ⟨b, hb, hsome⟩
          · exact Or.inl hs
          · rcases List.mem_cons.mp hb with rfl | hb
            · rw [hget] at hsome
              cases hsome
            · exact Or.inr ⟨b, hb, hsome⟩
        simp only [sharedLength, hget]
        exact ih shared hshared hrest hone'
      · have hmore := ih (some n) (Or.inr rfl) hrest (Or.inl rfl)
        rcases hshared with rfl | rfl
        · simp only [sharedLength, hget, asList, Value.list?, hlen, hmore]
        · simp only [sharedLength, hget, asList, Value.list?, hlen, if_true, hmore]
  exact key arrays none (Or.inl rfl) h (Or.inr hone)

/-- A field that counts the elements of arrays counts none where none of them is there. -/
theorem Frame.liveLength_of_absent {frame : Frame} {arrays : List String}
    (h : ∀ a ∈ arrays, frame.record.get? a = none) : frame.liveLength arrays = .ok 0 := by
  unfold liveLength
  induction arrays with
  | nil => rfl
  | cons a rest ih =>
    simp only [sharedLength, h a (by simp)]
    exact ih fun b hb => h b (List.mem_cons_of_mem _ hb)

/-- Whether the elements that a field counts, if it counts any, are those of an array that is always
there. -/
def Struct.Anchored (s : Struct) (name : String) : Prop :=
  s.isCount name = true → ∃ a ∈ s.fields, a.countedBy? = some name ∧ a.condition = none

/-- Whether the elements that a reader has stored decide a condition as the number of elements that it
tests did, if it tests one: an array of this many elements is there, or none decide it likewise. -/
def Struct.Recounts (s : Struct) (p : Progress) (cond : Condition) : Prop :=
  s.isCount cond.field = true →
    (∃ a ∈ s.arraysCountedBy cond.field, (p.record.get? a).isSome = true) ∨
      ∀ v ∈ p.scratch.lookup cond.field, cond.holds v = cond.holds 0

instance (s : Struct) (p : Progress) (cond : Condition) : Decidable (s.Recounts p cond) :=
  inferInstanceAs (Decidable (s.isCount cond.field = true →
    (∃ a ∈ s.arraysCountedBy cond.field, (p.record.get? a).isSome = true) ∨
      ∀ v ∈ p.scratch.lookup cond.field, cond.holds v = cond.holds 0))

/-- Whether this holds of all conditions of fields on the wire. -/
def Struct.RecountsAll (s : Struct) (p : Progress) : Prop :=
  ∀ f ∈ s.fields, f.isConst = false → ∀ cond ∈ f.condition, s.Recounts p cond

instance (s : Struct) (p : Progress) : Decidable (s.RecountsAll p) :=
  inferInstanceAs (Decidable (∀ f ∈ s.fields, f.isConst = false → ∀ cond ∈ f.condition,
    s.Recounts p cond))

theorem Struct.anchored_of_unconditioned {s : Struct}
    (h : ∀ f ∈ s.fields, f.countedBy?.isSome = true → f.condition = none) (name : String) :
    s.Anchored name := by
  intro hcount
  obtain ⟨a, ha, hby⟩ := Struct.isCount_eq_true.mp hcount
  exact ⟨a, ha, hby, h a ha (by rw [hby]; rfl)⟩

/-- The states that a reader goes through: before each place, and after the entry of the place. -/
structure Codec.Ran (c : Codec) (d : Decoder) (s : Struct) (plan : Plan) (slots : List UnionSlot)
    (entries : List (Option WireEntry)) (st mid : Nat → Progress) : Prop where
  wellFormed : s.WellFormed c.schema.types
  planned : c.schema.Planned s plan slots entries
  empty : ∀ name, (st 0).record.get? name = none
  unknown : ∀ f ∈ s.fields, f.isConst = false → (st 0).scratch.lookup f.name = none
  entry : ∀ i e, entries[i]? = some (some e) →
    c.readStep d s plan (st i) (e.step (e.decodeOp s)) = .ok (mid i)
  skip : ∀ i : Nat, entries[i]? = some none → mid i = st i
  resolve : ∀ i < entries.length, ((s.slotsAt slots i).map Struct.resolveStep).foldlM
    (c.readStep d s plan) (mid i) = .ok (st (i + 1))
  check : ∀ i < entries.length, ∀ step ∈ s.checksAt slots i,
    c.readStep d s plan (st (i + 1)) step = .ok (st (i + 1))

namespace Codec

variable {c : Codec} {d : Decoder} {s : Struct} {plan : Plan} {slots : List UnionSlot}
  {entries : List (Option WireEntry)} {st mid : Nat → Progress}

/-- A comparison of sizes changes nothing. -/
theorem eq_of_check {p p' : Progress} {step : Step DecodeOp} {place : Nat}
    (hstep : step ∈ s.checksAt slots place) (h : c.readStep d s plan p step = .ok p') : p' = p := by
  obtain ⟨i, f, target, -, -, -, -, rfl⟩ := Struct.exists_of_mem_checksAt hstep
  rcases performs_of_readStep h with hsame | hdone
  · exact hsame
  · cases hdone
    rfl

theorem checks_of_foldlM {p p' : Progress} {steps : List (Step DecodeOp)} {place : Nat}
    (hsteps : ∀ step ∈ steps, step ∈ s.checksAt slots place)
    (h : steps.foldlM (c.readStep d s plan) p = .ok p') :
    p' = p ∧ ∀ step ∈ steps, c.readStep d s plan p step = .ok p := by
  induction steps with
  | nil => exact ⟨(pure_eq_ok.mp h).symm, fun _ hs => by cases hs⟩
  | cons step rest ih =>
    rw [List.foldlM_cons] at h
    obtain ⟨q, hq, hq'⟩ := bind_eq_ok.mp h
    obtain rfl := eq_of_check (hsteps step (by simp)) hq
    obtain ⟨hp, hrest⟩ := ih (fun x hx => hsteps x (List.mem_cons_of_mem _ hx)) hq'
    refine ⟨hp, fun x hx => ?_⟩
    rcases List.mem_cons.mp hx with rfl | hx
    · exact hq
    · exact hrest x hx

/-- A struct that was read went through states. -/
theorem Sound.ran_of_steps (hc : c.Sound) {name : String} (hl : c.lookup name = .ok (s, plan))
    {cursor : Cursor} {p : Progress}
    (hb : plan.decode.foldlM (c.readStep d s plan) (Progress.start s name cursor) = .ok p) :
    ∃ slots entries st mid, c.Ran d s plan slots entries st mid ∧
      st 0 = Progress.start s name cursor ∧ st entries.length = p := by
  obtain ⟨-, hmem, -, -, -, slots, entries, hp⟩ := hc.planned_of_lookup hl
  have hs := hc.linked.wellFormed s hmem
  rw [hp.decode] at hb
  unfold Struct.decodeSteps at hb
  rw [foldlM_flatMap] at hb
  obtain ⟨st, h0, hn, hst⟩ := foldlM_states hb
  rw [List.length_zipIdx] at hn
  have hplace : ∀ i, ∃ m, ∀ hi : i < entries.length,
      ((entries[i].map fun e => e.step (e.decodeOp s)).toList).foldlM
          (c.readStep d s plan) (st i) = .ok m ∧
        ((s.slotsAt slots i).map Struct.resolveStep).foldlM (c.readStep d s plan) m =
          .ok (st (i + 1)) ∧
        ∀ step ∈ s.checksAt slots i,
          c.readStep d s plan (st (i + 1)) step = .ok (st (i + 1)) := by
    intro i
    by_cases hi : i < entries.length
    · have hfold := hst i (by rw [List.length_zipIdx]; exact hi)
      simp only [List.getElem_zipIdx, Nat.zero_add, List.foldlM_append, Struct.deferredAt_eq,
        bind_eq_ok] at hfold
      obtain ⟨m, hm, q, hq, hchecks⟩ := hfold
      obtain ⟨heq, hcheck⟩ := checks_of_foldlM (fun _ hs => hs) hchecks
      rw [heq]
      exact ⟨m, fun _ => ⟨hm, hq, hcheck⟩⟩
    · exact ⟨st i, fun h => absurd h hi⟩
  choose mid hmid using hplace
  refine ⟨slots, entries, st, mid, ?_, h0, hn⟩
  constructor
  case wellFormed => exact hs
  case planned => exact hp
  case empty => intro name; rw [h0]; rfl
  case unknown =>
    intro f hf hconst
    rw [h0]
    exact Progress.lookup_start hs.names hf hconst name cursor
  case entry =>
    intro i e he
    obtain ⟨hi, hget⟩ := List.getElem?_eq_some_iff.mp he
    obtain ⟨hm, -⟩ := hmid i hi
    rw [hget, Option.map_some, Option.toList_some, List.foldlM_cons] at hm
    obtain ⟨q, hq, hm⟩ := bind_eq_ok.mp hm
    rw [hq, pure_eq_ok.mp hm]
  case skip =>
    intro i he
    obtain ⟨hi, hget⟩ := List.getElem?_eq_some_iff.mp he
    obtain ⟨hm, -⟩ := hmid i hi
    rw [hget] at hm
    exact (pure_eq_ok.mp hm).symm
  case resolve => exact fun i hi => (hmid i hi).2.1
  case check => exact fun i hi => (hmid i hi).2.2

theorem Sound.ran_of_decodeAt (hc : c.Sound) {n : Nat} {name : String} {cursor cursor' : Cursor}
    {r : Record} (h : c.decodeAt (n + 1) name cursor = .ok (r, cursor')) :
    ∃ s plan slots entries st mid, c.lookup name = .ok (s, plan) ∧
      c.Ran (c.decodeAt n) s plan slots entries st mid ∧ st 0 = Progress.start s name cursor ∧
      (st entries.length).record = r ∧ (st entries.length).cursor = cursor' := by
  simp only [decodeAt, bind_eq_ok] at h
  obtain ⟨⟨s, plan⟩, hl, p, hb, h⟩ := h
  cases h
  obtain ⟨slots, entries, st, mid, hr, hstart, rfl⟩ := hc.ran_of_steps hl hb
  exact ⟨s, plan, slots, entries, st, mid, hl, hr, hstart, rfl, rfl⟩

/-! ## Names that a place leaves alone -/

section Names

variable (hr : c.Ran d s plan slots entries st mid)

include hr

theorem Ran.agree_mid {i : Nat} (hi : i < entries.length) {name : String}
    (hname : s.ready slots name ≠ i) : (st i).Agree name (mid i) := by
  cases he : entries[i] with
  | none =>
    rw [hr.skip i (List.getElem?_eq_some_iff.mpr ⟨hi, he⟩)]
    exact .refl name _
  | some e =>
    have hget := List.getElem?_eq_some_iff.mpr ⟨hi, he⟩
    refine agree_of_readStep (hr.entry i e hget) fun hmem => hname ?_
    exact hr.planned.ready_of_entry hr.wellFormed hget hmem

theorem Ran.agree_place {i : Nat} (hi : i < entries.length) {name : String}
    (hname : s.ready slots name ≠ i) : (st i).Agree name (st (i + 1)) :=
  (hr.agree_mid hi hname).trans (agree_of_resolves (hr.resolve i hi)
    fun _ hslot hmem => hname (hr.planned.ready_of_slotsAt hr.wellFormed hslot hmem))

/-- Between two states a name is left alone that is ready before the first or after the second. -/
theorem Ran.agree_between {i j : Nat} (hij : i ≤ j) (hj : j ≤ entries.length) {name : String}
    (hname : s.ready slots name < i ∨ j ≤ s.ready slots name) : (st i).Agree name (st j) := by
  induction hij with
  | refl => exact .refl name _
  | @step k hik ih =>
    refine (ih (Nat.le_of_succ_le hj) (hname.imp id (Nat.le_of_succ_le))).trans ?_
    refine hr.agree_place hj ?_
    have : i ≤ k := hik
    omega

/-- A name that is ready before a state is not changed after it. -/
theorem Ran.agree_final {i : Nat} (hi : i ≤ entries.length) {name : String}
    (hname : s.ready slots name < i) : (st i).Agree name (st entries.length) :=
  hr.agree_between hi (Nat.le_refl _) (Or.inl hname)

/-- A field of its own is not changed by the resolution of unions. -/
theorem Ran.agree_resolves_own {i : Nat} (hi : i < entries.length) {name : String}
    (hunion : s.unionOf? name = none) : (mid i).Agree name (st (i + 1)) := by
  refine agree_of_resolves (hr.resolve i hi) fun slot hslot => ?_
  exact hr.planned.not_member hr.wellFormed (Struct.mem_slotsAt.mp hslot).1 hunion

/-- The name of a field of its own is not changed after its entry. -/
theorem Ran.agree_own {i : Nat} {f : Field} (hf : s.fields[i]? = some f)
    (hunion : s.unionOf? f.name = none) : (mid i).Agree f.name (st entries.length) := by
  have hi : i < entries.length := hr.planned.length ▸ (List.getElem?_eq_some_iff.mp hf).1
  have hready := hr.planned.ready_of_own hr.wellFormed hf hunion
  exact (hr.agree_resolves_own hi hunion).trans (hr.agree_final hi (by omega))

/-- What the entry of a field of its own stores for it is in the record at the end. -/
theorem Ran.get?_of_store {i : Nat} {f : Field} (hf : s.fields[i]? = some f)
    (hunion : s.unionOf? f.name = none) {p : Progress} {v : Value} {cursor : Cursor}
    (hmid : (p.store f.name v).moveTo cursor = mid i) :
    (st entries.length).record.get? f.name = some v := by
  rw [(hr.agree_own hf hunion).record, ← hmid]
  exact Record.get?_insert_self _ _ _

/-- A field of its own is not in the record if its entry stores nothing. -/
theorem Ran.get?_of_still {i : Nat} {f : Field} (hf : s.fields[i]? = some f)
    (hunion : s.unionOf? f.name = none) (hmid : (mid i).record = (st i).record) :
    (st entries.length).record.get? f.name = none := by
  have hi : i < entries.length := hr.planned.length ▸ (List.getElem?_eq_some_iff.mp hf).1
  have hready := hr.planned.ready_of_own hr.wellFormed hf hunion
  have hbefore : (st 0).Agree f.name (st i) :=
    hr.agree_between (Nat.zero_le i) (Nat.le_of_lt hi) (Or.inr (Nat.le_of_eq hready.symm))
  rw [(hr.agree_own hf hunion).record, hmid, hbefore.record]
  exact hr.empty f.name

/-- An entry is passed if its condition does not hold. -/
theorem Ran.entry_cases {i : Nat} {e : WireEntry} (he : entries[i]? = some (some e)) :
    ((st i).holds s.name e.guard = .ok false ∧ mid i = st i) ∨
      (st i).holds s.name e.guard = .ok true ∧
        c.readOp d s plan e.field (st i) (e.decodeOp s) = .ok (mid i) := by
  obtain ⟨b, hb, h⟩ := bind_eq_ok.mp (hr.entry i e he)
  cases b with
  | false => exact Or.inl ⟨hb, (Except.ok.inj h).symm⟩
  | true => exact Or.inr ⟨hb, h⟩

/-- A plain or inline field of its own that counts nothing is in the record if its entry was read. -/
theorem Ran.exists_get?_of_stored {i : Nat} {f : Field} (hf : s.fields[i]? = some f)
    (hunion : s.unionOf? f.name = none) (hstored : f.isStored = true)
    (hcount : s.isCount f.name = false) {shape : WireShape} (hshape : c.schema.Shaped s f shape)
    {role : Role} {guard : Option Condition} (hread : c.readOp d s plan f.name (st i)
      (WireEntry.decodeOp s { field := f.name, role, guard, shape }) = .ok (mid i)) :
    ∃ v, (st entries.length).record.get? f.name = some v := by
  rcases hshape.of_isStored hstored with ⟨l, rfl, -⟩ | ⟨isInline, rfl, -⟩
  · simp only [WireEntry.decodeOp, hcount, Bool.false_eq_true, if_false] at hread
    obtain ⟨⟨v, next⟩, -, hmid⟩ := bind_eq_ok.mp hread
    exact ⟨v, hr.get?_of_store hf hunion (Except.ok.inj hmid)⟩
  · obtain ⟨⟨r, next⟩, -, hmid⟩ := bind_eq_ok.mp hread
    exact ⟨_, hr.get?_of_store hf hunion (Except.ok.inj hmid)⟩

/-! ## Integers that were asked for -/

/-- An integer of a plain field that is known at a state was read before and is the one that is known
at the end. -/
theorem Ran.lookup_final {i k : Nat} (hi : i ≤ entries.length) {f : Field}
    (hf : s.fields[k]? = some f) (ht : f.Testable c.schema.types) {v : Int}
    (hv : (st i).scratch.lookup f.name = some v) :
    k < i ∧ (st entries.length).scratch.lookup f.name = some v := by
  have hmem := List.mem_of_getElem? hf
  have hunion := Struct.unionOf?_of_unconditioned hr.wellFormed.names hmem ht.plain.2
  have hready := hr.planned.ready_of_own hr.wellFormed hf hunion
  have hlt : k < i := by
    by_contra hle
    have hagree : (st 0).Agree f.name (st i) :=
      hr.agree_between (Nat.zero_le i) hi (Or.inr (by omega))
    rw [hagree.scratch, hr.unknown f hmem (by simp [Field.isConst, ht.plain.1, Disposition.role])]
      at hv
    cases hv
  refine ⟨hlt, ?_⟩
  rw [(hr.agree_final hi (by omega)).scratch]
  exact hv

/-- The length that is known when a field is read is that of a plain field of integer type, and the one
that is known at the end. -/
theorem Ran.lookup_length {i : Nat} {f : Field} (hf : s.fields[i]? = some f) {name : String}
    (hname : f.lengthName? = some name) {v : Int} (hv : (st i).scratch.lookup name = some v) :
    ∃ (j : Nat) (g : Field), s.fields[j]? = some g ∧ g.name = name ∧ g.Testable c.schema.types ∧
      (st entries.length).scratch.lookup name = some v := by
  obtain ⟨j, g, -, hg, rfl, hplain, hnumber⟩ := hr.wellFormed.counted i f hf name hname
  have ht : g.Testable c.schema.types := ⟨hplain, TypeTable.intType_of_isNumber hnumber⟩
  have hi : i < entries.length := hr.planned.length ▸ (List.getElem?_eq_some_iff.mp hf).1
  exact ⟨j, g, hg, rfl, ht, (hr.lookup_final (Nat.le_of_lt hi) hg ht hv).2⟩

/-- A plain field of integer type was read; the record holds the integer, unless it counts
elements. -/
theorem Ran.int_of_testable {k : Nat} {f : Field} (hf : s.fields[k]? = some f)
    (ht : f.Testable c.schema.types) :
    ∃ v, (st entries.length).scratch.lookup f.name = some v ∧ (s.isCount f.name = false →
      (st entries.length).record.get? f.name = some (.int v)) := by
  have hmem := List.mem_of_getElem? hf
  have hunion := Struct.unionOf?_of_unconditioned hr.wellFormed.names hmem ht.plain.2
  obtain ⟨leaf, t, hform, hentry⟩ := hr.planned.entry_of_testable hr.wellFormed hf ht
  have hread := hr.entry k _ hentry
  have hfinal := hr.agree_own hf hunion
  simp only [readStep, WireEntry.step, Progress.holds, ok_bind, if_true, WireEntry.decodeOp]
    at hread
  cases hcount : s.isCount f.name with
  | true =>
    simp only [hcount, if_true] at hread
    obtain ⟨⟨v, cursor⟩, -, hmid⟩ := bind_eq_ok.mp hread
    refine ⟨v, ?_, fun h => by cases h⟩
    rw [hfinal.scratch, ← Except.ok.inj hmid]
    exact (Ordered.lookup_cons _ _ _).trans (if_pos rfl)
  | false =>
    simp only [hcount, Bool.false_eq_true, if_false] at hread
    obtain ⟨⟨v, cursor⟩, hv, hmid⟩ := bind_eq_ok.mp hread
    unfold Leaf.read at hv
    rw [hform] at hv
    obtain ⟨⟨n, cursor'⟩, -, hv⟩ := map_eq_ok.mp hv
    cases hv
    refine ⟨n, ?_, fun _ => ?_⟩
    · rw [hfinal.scratch, ← Except.ok.inj hmid]
      exact (Ordered.lookup_cons _ _ _).trans (if_pos rfl)
    · exact hr.get?_of_store hf hunion (Except.ok.inj hmid)

/-- A field that counts elements is not in the record. -/
theorem Ran.get?_of_isCount {k : Nat} {f : Field} (hf : s.fields[k]? = some f)
    (hcount : s.isCount f.name = true) : (st entries.length).record.get? f.name = none := by
  have hmem := List.mem_of_getElem? hf
  have ht := hr.wellFormed.testable_of_isCount hmem hcount
  have hunion := Struct.unionOf?_of_unconditioned hr.wellFormed.names hmem ht.plain.2
  obtain ⟨leaf, t, -, hentry⟩ := hr.planned.entry_of_testable hr.wellFormed hf ht
  have hread := hr.entry k _ hentry
  simp only [readStep, WireEntry.step, Progress.holds, ok_bind, if_true, WireEntry.decodeOp,
    hcount] at hread
  obtain ⟨q, -, hmid⟩ := bind_eq_ok.mp hread
  refine hr.get?_of_still hf hunion ?_
  rw [← Except.ok.inj hmid]
  rfl

/-- A counted array that is there has as many elements as its length field says, and one without a
condition is there. -/
theorem Ran.counted_array {i : Nat} {a : Field} (ha : s.fields[i]? = some a) {name : String}
    (hby : a.countedBy? = some name) :
    (a.condition ≠ none ∧ (st entries.length).record.get? a.name = none) ∨
      ∃ items, (st entries.length).record.get? a.name = some (.list items) ∧
        (st entries.length).scratch.lookup name = some (items.length : Int) := by
  have hmem := List.mem_of_getElem? ha
  have hd := Field.disposition_of_countedBy? hby
  have hunion := hr.planned.unionOf?_of_not_stored hr.wellFormed hmem (by simp [Field.isStored, hd])
  obtain ⟨shape, hshape, he⟩ := hr.planned.entry_of_own hr.wellFormed ha
    (by simp [Field.isConst, hd, Disposition.role]) hunion
  obtain ⟨element, -, rfl⟩ := hshape.of_array hd
  rcases hr.entry_cases he with ⟨hfalse, hskip⟩ | ⟨-, hread⟩
  · refine Or.inl ⟨fun hcond => ?_, hr.get?_of_still ha hunion (by rw [hskip])⟩
    rw [hcond] at hfalse
    cases hfalse
  simp only [WireEntry.decodeOp, readOp, countOf, bind_eq_ok] at hread
  obtain ⟨n, ⟨v, hv, hn⟩, ⟨items, cursor⟩, hitems, hmid⟩ := hread
  obtain ⟨rfl, -⟩ := toLength_eq_ok.mp hn
  refine Or.inr ⟨items, hr.get?_of_store ha hunion (Except.ok.inj hmid), ?_⟩
  obtain ⟨-, -, -, -, -, hfinal⟩ :=
    hr.lookup_length ha (Field.lengthName?_of_countedBy? hby) (noted_eq_ok.mp hv)
  rw [length_of_readCounted hitems]
  exact hfinal

/-- Among the arrays whose elements a field counts one is there, if one has no condition. -/
theorem Ran.isSome_of_anchored {name : String} (hanchored : s.Anchored name)
    (hcount : s.isCount name = true) :
    ∃ a ∈ s.arraysCountedBy name, ((st entries.length).record.get? a).isSome = true := by
  obtain ⟨a, ha, hby, hnone⟩ := hanchored hcount
  obtain ⟨i, hi⟩ := List.mem_iff_getElem?.mp ha
  refine ⟨a.name, List.mem_map.mpr ⟨a, List.mem_filter.mpr ⟨ha, by simpa using hby⟩, rfl⟩, ?_⟩
  rcases hr.counted_array hi hby with ⟨hcond, -⟩ | ⟨items, hget, -⟩
  · exact absurd hnone hcond
  · rw [hget]
    rfl

theorem Ran.recounts_of_anchored {cond : Condition} (hanchored : s.Anchored cond.field) :
    s.Recounts (st entries.length) cond :=
  fun hcount => Or.inl (hr.isSome_of_anchored hanchored hcount)

section Finished

variable (frame : Frame) (hstruct : frame.struct = s)
  (hrecord : frame.record = (st entries.length).record)

include hstruct hrecord

omit hstruct in
/-- The number of elements that the finished record has for a field: it is the number that was read,
or none of the arrays is there. -/
theorem Ran.liveLength {name : String} {v : Int}
    (hv : (st entries.length).scratch.lookup name = some v) :
    ∃ n : Nat, frame.liveLength (s.arraysCountedBy name) = .ok n ∧
      ((n : Int) = v ∨ n = 0 ∧ ∀ a ∈ s.arraysCountedBy name, frame.record.get? a = none) := by
  have harray : ∀ a ∈ s.arraysCountedBy name, ∃ (i : Nat) (f : Field), s.fields[i]? = some f ∧
      f.name = a ∧ f.countedBy? = some name := by
    intro a ha
    obtain ⟨f, hf, rfl⟩ := List.mem_map.mp ha
    obtain ⟨hf, hby⟩ := List.mem_filter.mp hf
    obtain ⟨i, hi⟩ := List.mem_iff_getElem?.mp hf
    exact ⟨i, f, hi, rfl, by simpa using hby⟩
  have hlist : ∀ a ∈ s.arraysCountedBy name, frame.record.get? a = none ∨
      ∃ items, frame.record.get? a = some (.list items) ∧ items.length = v.toNat := by
    intro a ha
    obtain ⟨i, f, hi, rfl, hby⟩ := harray a ha
    rcases hr.counted_array hi hby with ⟨-, hnone⟩ | ⟨items, hget, hlen⟩
    · exact Or.inl (hrecord ▸ hnone)
    · rw [hv] at hlen
      exact Or.inr ⟨items, hrecord ▸ hget, by rw [Option.some.inj hlen]; rfl⟩
  by_cases hone : ∃ a ∈ s.arraysCountedBy name, (frame.record.get? a).isSome = true
  · refine ⟨v.toNat, Frame.liveLength_eq hlist hone, Or.inl ?_⟩
    obtain ⟨a, ha, hsome⟩ := hone
    obtain ⟨i, f, hi, rfl, hby⟩ := harray a ha
    rcases hr.counted_array hi hby with ⟨-, hnone⟩ | ⟨items, -, hlen⟩
    · rw [hrecord, hnone] at hsome
      cases hsome
    · rw [hv] at hlen
      rw [Option.some.inj hlen]
      rfl
  · have habsent : ∀ a ∈ s.arraysCountedBy name, frame.record.get? a = none := by
      intro a ha
      rw [← Option.not_isSome_iff_eq_none]
      exact fun hsome => hone ⟨a, ha, hsome⟩
    exact ⟨0, Frame.liveLength_of_absent habsent, Or.inr ⟨rfl, habsent⟩⟩

/-- The finished record gives a plain field the integer that was read, or zero if that is a number of
elements and none of the arrays is there. -/
theorem Ran.intOf {f : Field} (hf : f ∈ s.fields) (ht : f.Testable c.schema.types) {v : Int}
    (hv : (st entries.length).scratch.lookup f.name = some v) (m : Measure) :
    ∃ w, frame.intOf m f.name = .ok w ∧ (w = v ∨ w = 0 ∧ s.isCount f.name = true ∧
      ∀ a ∈ s.arraysCountedBy f.name, (st entries.length).record.get? a = none) := by
  have hs := hr.wellFormed
  obtain ⟨k, hk⟩ := List.mem_iff_getElem?.mp hf
  subst hstruct
  cases hcount : frame.struct.isCount f.name with
  | false =>
    obtain ⟨w, hw, hget⟩ := hr.int_of_testable hk ht
    rw [hv] at hw
    cases hw
    rw [Frame.intOf_of_get? hs hf ht hcount (hrecord ▸ hget hcount)]
    exact ⟨v, rfl, Or.inl rfl⟩
  | true =>
    obtain ⟨n, hn, hnv⟩ := hr.liveLength frame hrecord hv
    rw [Frame.intOf_of_isCount hs hf ht hcount, hn, ok_map]
    rcases hnv with hnv | ⟨rfl, habsent⟩
    · exact ⟨n, rfl, Or.inl hnv⟩
    · exact ⟨0, rfl, Or.inr ⟨rfl, rfl, fun a ha => hrecord ▸ habsent a ha⟩⟩

/-- The finished record gives a plain field the integer that was read, if that is no number of elements
or is found again in an array that is always there. -/
theorem Ran.intOf_of_anchored {f : Field} (hf : f ∈ s.fields) (ht : f.Testable c.schema.types)
    (hanchored : s.Anchored f.name) {v : Int}
    (hv : (st entries.length).scratch.lookup f.name = some v) (m : Measure) :
    frame.intOf m f.name = .ok v := by
  obtain ⟨w, hw, rfl | ⟨-, hcount, habsent⟩⟩ := hr.intOf frame hstruct hrecord hf ht hv m
  · exact hw
  · obtain ⟨a, ha, hsome⟩ := hr.isSome_of_anchored hanchored hcount
    rw [habsent a ha] at hsome
    cases hsome

/-- A condition is decided alike for the integer that the finished record gives and for the one that
was read. -/
theorem Ran.intOf_decides {f : Field} (hf : f ∈ s.fields) (ht : f.Testable c.schema.types) {v : Int}
    (hv : (st entries.length).scratch.lookup f.name = some v) (m : Measure) :
    ∃ w, frame.intOf m f.name = .ok w ∧ ∀ cond, cond.field = f.name →
      s.Recounts (st entries.length) cond → cond.holds w = cond.holds v := by
  obtain ⟨w, hw, hcases⟩ := hr.intOf frame hstruct hrecord hf ht hv m
  refine ⟨w, hw, fun cond hfield hrecounts => ?_⟩
  rcases hcases with rfl | ⟨rfl, hcount, habsent⟩
  · rfl
  rw [← hfield] at hcount habsent hv
  rcases hrecounts hcount with ⟨a, ha, hsome⟩ | halike
  · rw [habsent a ha] at hsome
    cases hsome
  · exact (halike v hv).symm

/-- The finished record decides a condition as it was decided when it was tested. -/
theorem Ran.holds {f : Field} (hf : f ∈ s.fields)
    (hrecounts : ∀ cond, f.condition = some cond → s.Recounts (st entries.length) cond) {i : Nat}
    (hi : i ≤ entries.length) {b : Bool} (h : (st i).holds s.name f.condition = .ok b)
    (m : Measure) : frame.holds m f.condition = .ok b := by
  cases hcond : f.condition with
  | none => rw [hcond] at h; exact h
  | some cond =>
    rw [hcond] at h
    obtain ⟨v, hv, rfl⟩ := map_eq_ok.mp h
    obtain ⟨g, hg, hname, ht⟩ := hr.wellFormed.tested f hf cond hcond
    obtain ⟨k, hk⟩ := List.mem_iff_getElem?.mp hg
    rw [← hname] at hv
    obtain ⟨-, hfinal⟩ := hr.lookup_final hi hk ht (noted_eq_ok.mp hv)
    obtain ⟨w, hw, hdecides⟩ := hr.intOf_decides frame hstruct hrecord hg ht hfinal m
    rw [hname] at hw
    exact map_eq_ok.mpr ⟨w, hw, hdecides cond hname.symm (hrecounts cond hcond)⟩

end Finished

/-! ## Unions -/

/-- The resolution of unions takes no bytes. -/
theorem Ran.cursor {i : Nat} (hi : i < entries.length) :
    (st (i + 1)).cursor = (mid i).cursor := (kept_of_resolves (hr.resolve i hi)).2

/-- The bytes of a union are set in its place only. -/
theorem Ran.slots_mid {i : Nat} (hi : i < entries.length) {name : String}
    (hname : s.position? name ≠ some i) :
    (mid i).slots.lookup name = (st i).slots.lookup name := by
  cases he : entries[i] with
  | none => rw [hr.skip i (List.getElem?_eq_some_iff.mpr ⟨hi, he⟩)]
  | some e =>
    have hget := List.getElem?_eq_some_iff.mpr ⟨hi, he⟩
    rcases hr.entry_cases hget with ⟨-, hskip⟩ | ⟨-, hread⟩
    · rw [hskip]
    rcases (performs_of_readOp hread).slots with hslots | ⟨size, raw, hop, hslots, -⟩
    · rw [hslots]
    · have hlt : i < s.fields.length := hr.planned.length ▸ hi
      obtain ⟨e', he', hentry⟩ := hr.planned.places i _ (List.getElem?_eq_getElem hlt)
      rw [hget] at he'
      cases he'
      cases hentry with
      | own _ _ hshape =>
        cases hshape with
        | leaf _ _ =>
          simp only [WireEntry.decodeOp] at hop
          split at hop <;> cases hop
        | _ => cases hop
      | @slot slot hslot hpos _ =>
        obtain ⟨g, -, hof⟩ := hr.planned.union_of_slot hslot
        have hne : name ≠ (Schema.slotEntry slot).field := by
          rintro rfl
          exact hname (hpos ▸ hof.position)
        rw [hslots, Ordered.lookup_cons, if_neg hne]

/-- The bytes of a union are those in its place. -/
theorem Ran.slot_bytes {slot : UnionSlot} (hslot : slot ∈ slots) {i : Nat} (hi : i < entries.length)
    (hle : slot.position ≤ i) : ∃ raw, (mid i).slots.lookup slot.name = some raw ∧
      (st slot.position).cursor.Reads raw (mid slot.position).cursor ∧
        raw.length = slot.bytes := by
  obtain ⟨g, -, hof⟩ := hr.planned.union_of_slot hslot
  have hentry := hr.planned.entry_of_slot hr.wellFormed hslot
  rcases hr.entry_cases hentry with ⟨hfalse, -⟩ | ⟨-, hread⟩
  · cases hfalse
  obtain ⟨⟨raw, cursor⟩, htake, hmid⟩ := bind_eq_ok.mp hread
  obtain ⟨hreads, hlen⟩ := Cursor.reads_of_take htake
  have hmid := (Except.ok.inj hmid).symm
  refine ⟨raw, ?_, by rw [hmid]; exact hreads, hlen⟩
  induction hle with
  | refl =>
    rw [hmid]
    exact (Ordered.lookup_cons _ _ _).trans (if_pos rfl)
  | @step k hle ih =>
    have hle : slot.position ≤ k := hle
    have hk : k < entries.length := Nat.lt_of_succ_lt hi
    rw [hr.slots_mid hi (by rw [hof.position, ne_eq, Option.some.injEq]; omega),
      (kept_of_resolves (hr.resolve k hk)).1, ih hk]

/-- What is known of a union that was read: the integer that its members' conditions test, and the
first member whose condition holds for it, if there is one. -/
theorem Ran.resolved {slot : UnionSlot} (hslot : slot ∈ slots) : ∃ raw t,
    (st slot.position).cursor.Reads raw (mid slot.position).cursor ∧ raw.length = slot.bytes ∧
      (st entries.length).scratch.lookup slot.conditionField = some t ∧
      ∀ m, slot.members.find? (fun m => m.guard.holds t) = some m → ∃ v cursor,
        m.element.read d (Cursor.start raw) = .ok (v, cursor) ∧
          (st entries.length).record.get? m.field = some v := by
  obtain ⟨hposition, hready⟩ := hr.planned.slotReady_lt hslot
  obtain ⟨raw, hraw, hreads, hlen⟩ :=
    hr.slot_bytes hslot hready (Struct.position_le_slotReady slot)
  obtain ⟨k, f, hk, hname, ht, hle⟩ := hr.planned.tested_of_slot hr.wellFormed hslot
  have hunion := Struct.unionOf?_of_unconditioned hr.wellFormed.names (List.mem_of_getElem? hk)
    ht.plain.2
  have hfready := hr.planned.ready_of_own hr.wellFormed hk hunion
  obtain ⟨t, hfinal, -⟩ := hr.int_of_testable hk ht
  -- the resolution of this slot among those of its place
  have hat : slot ∈ s.slotsAt slots (s.slotReady slot) := Struct.mem_slotsAt.mpr ⟨hslot, rfl⟩
  obtain ⟨l, l', hsplit⟩ := List.append_of_mem hat
  have hresolve := hr.resolve _ hready
  rw [hsplit, List.map_append, List.map_cons] at hresolve
  obtain ⟨p, p', hbefore, hstep, hafter⟩ := foldlM_split hresolve
  have hnotin : ∀ x ∈ l ++ l', f.name ∉ x.members.map (·.field) := by
    intro x hx hmem
    have hxat : x ∈ s.slotsAt slots (s.slotReady slot) := by
      rw [hsplit]
      rcases List.mem_append.mp hx with hx | hx
      · exact List.mem_append_left _ hx
      · exact List.mem_append_right _ (List.mem_cons_of_mem _ hx)
    exact hr.planned.not_member hr.wellFormed (Struct.mem_slotsAt.mp hxat).1 hunion hmem
  have htested : p.scratch.lookup slot.conditionField = some t := by
    have hlater : (st (s.slotReady slot + 1)).Agree f.name (st entries.length) :=
      hr.agree_final hready (by omega)
    have hin := (hr.agree_resolves_own hready hunion).trans hlater
    have hbefore' := agree_of_resolves hbefore fun x hx => hnotin x (List.mem_append_left _ hx)
    rw [← hname, hbefore'.scratch, ← hin.scratch, hfinal]
  refine ⟨raw, t, hreads, hlen, hname ▸ hfinal, fun m hfind => ?_⟩
  have hm := List.mem_of_find?_eq_some hfind
  simp only [readStep, Struct.resolveStep, Progress.holds, ok_bind, if_true, readOp,
    bind_eq_ok] at hstep
  obtain ⟨raw', hraw', hstep⟩ := hstep
  have hsame : p.slots.lookup slot.name = some raw := by
    rw [(kept_of_resolves hbefore).1]
    exact hraw
  obtain rfl : raw' = raw := by
    rw [slot_eq_ok, hsame] at hraw'
    exact (Option.some.inj hraw').symm
  rw [readUnion_eq htested (hr.planned.guard_of_slot hr.wellFormed hslot), hfind] at hstep
  obtain ⟨⟨v, cursor⟩, hv, hp'⟩ := map_eq_ok.mp hstep
  refine ⟨v, cursor, hv, ?_⟩
  have hother : ∀ x ∈ l', m.field ∉ x.members.map (·.field) := by
    intro x hx hmem
    obtain ⟨m', hm', hmname⟩ := List.mem_map.mp hmem
    have hxat : x ∈ s.slotsAt slots (s.slotReady slot) := by
      rw [hsplit]
      exact List.mem_append_right _ (List.mem_cons_of_mem _ hx)
    have hnodup : (s.slotsAt slots (s.slotReady slot)).Nodup :=
      hr.planned.nodup_slots.sublist List.filter_sublist
    obtain rfl := hr.planned.slot_of_member hr.wellFormed hslot (Struct.mem_slotsAt.mp hxat).1 hm
      hm' hmname
    rw [hsplit] at hnodup
    exact (List.nodup_cons.mp (List.nodup_append.mp hnodup).2.1).1 hx
  have hkept := (agree_of_resolves hafter hother).trans
    (hr.agree_final hready (by rw [hr.planned.ready_of_member hr.wellFormed hslot hm]; omega))
  rw [hkept.record, ← hp']
  exact Record.get?_insert_self _ _ _

end Names

end Codec

end WireLayout
