import WireLayout.Proofs.DefaultDiscriminators
import WireLayout.Proofs.Interchange

/-!
# Leaving initial values out

A member that a record leaves out takes its initial value, and so a record with the initial values
filled in is interchangeable with the record as it was. The values of the surroundings come first: where
a nested struct has initial values of its own, those that were filled in from outside are the ones in
force. The members have to be reached through inline fields and to be plain, and neither may lie in a
union nor be the length of a region, as there a record that says something differs from one that says
nothing.
-/

namespace WireLayout

theorem Record.eq_of_toValue {r r' : Record} (h : r.toValue = r'.toValue) : r = r' := by
  have hrecord := congrArg Value.record? h
  rw [Value.record?_toValue, Value.record?_toValue] at hrecord
  exact Option.some.inj hrecord

/-! ## Filling in -/

namespace Schema

variable (schema : Schema)

/-- The record with a value set at the end of a path, unless it has one there. Structs on the way that
the record leaves out are made empty. -/
def fillAt : Struct → List String → Int → Record → Record
  | _, [], _, r => r
  | _, [last], value, r => if (r.get? last).isSome then r else r.insert last (.int value)
  | s, hop :: path, value, r =>
    match (s.field? hop).bind fun f => schema.struct? f.typeName with
    | none => r
    | some t =>
      match (r.get? hop).getD (Record.empty t.name).toValue |>.record? with
      | some inner => r.insert hop (fillAt t path value inner).toValue
      | none => r

/-- The record with all initial values filled in. -/
def fill (s : Struct) (initializers : List Initializer) (r : Record) : Record :=
  initializers.foldl (fun r i => schema.fillAt s i.path i.value r) r

/-- Whether a path leads through inline fields to a plain one, none of them in a union, and the last
one not the length of a region. -/
def fillable : Struct → List String → Bool
  | _, [] => false
  | s, [last] => (s.field? last).any fun f =>
    f.disposition == .plain && (s.unionOf? last).isNone && (s.regionsMeasuredBy last).isEmpty
  | s, hop :: path => (s.field? hop).any fun f =>
    f.disposition == .inline && (s.unionOf? hop).isNone &&
      (schema.struct? f.typeName).any fun t => fillable t path

/-- Whether a record has, at every proper prefix of a path, nothing or a record of the right struct. -/
def fitsPath : Struct → List String → Record → Bool
  | s, hop :: next :: path, r => (r.get? hop).all fun v =>
    ((s.field? hop).bind fun f => schema.struct? f.typeName).any fun t =>
      v.record?.any fun inner => inner.typeName == t.name && fitsPath t (next :: path) inner
  | _, _, _ => true

variable {schema}

theorem fillable_last {s : Struct} {last : String} :
    schema.fillable s [last] = true ↔ ∃ f, s.field? last = some f ∧ f.disposition = .plain ∧
      s.unionOf? last = none ∧ s.regionsMeasuredBy last = [] := by
  simp only [fillable, Option.any_eq_true, Bool.and_eq_true, beq_iff_eq, Option.isNone_iff_eq_none,
    List.isEmpty_iff, and_assoc]

theorem fillable_hop {s : Struct} {hop next : String} {path : List String} :
    schema.fillable s (hop :: next :: path) = true ↔ ∃ f t, s.field? hop = some f ∧
      f.disposition = .inline ∧ s.unionOf? hop = none ∧ schema.struct? f.typeName = some t ∧
      schema.fillable t (next :: path) = true := by
  simp only [fillable, Option.any_eq_true, Bool.and_eq_true, beq_iff_eq, Option.isNone_iff_eq_none,
    and_assoc, exists_and_left]

theorem fillAt_hop {s t : Struct} {hop next : String} {path : List String} {value : Int}
    {r inner : Record} {f : Field} (hf : s.field? hop = some f)
    (ht : schema.struct? f.typeName = some t)
    (hinner : (r.get? hop).getD (Record.empty t.name).toValue = inner.toValue) :
    schema.fillAt s (hop :: next :: path) value r =
      r.insert hop (schema.fillAt t (next :: path) value inner).toValue := by
  rw [fillAt]
  · rw [hf, Option.bind_some, ht]
    dsimp only
    rw [hinner, Value.record?_toValue]
  · nofun

theorem get?_fillAt_last {s : Struct} {last : String} {value : Int} {r : Record} :
    (schema.fillAt s [last] value r).get? last = (r.get? last).or (some (.int value)) := by
  rw [fillAt]
  cases hlast : r.get? last with
  | some v => simp [hlast]
  | none => simp

theorem get?_fillAt_of_ne {s : Struct} {path : List String} {value : Int} {r : Record}
    {name : String} (h : path.head? ≠ some name) :
    (schema.fillAt s path value r).get? name = r.get? name := by
  match path with
  | [] => rw [fillAt]
  | [last] =>
    have hne : name ≠ last := fun heq => h (by rw [heq]; rfl)
    rw [fillAt]
    split
    · rfl
    · exact r.get?_insert_of_ne _ hne
  | hop :: next :: path =>
    have hne : name ≠ hop := fun heq => h (by rw [heq]; rfl)
    rw [fillAt]
    · split
      · rfl
      · split
        · exact r.get?_insert_of_ne _ hne
        · rfl
    · nofun

theorem typeName_fillAt {s : Struct} {path : List String} {value : Int} {r : Record} :
    (schema.fillAt s path value r).typeName = r.typeName := by
  match path with
  | [] => rw [fillAt]
  | [last] =>
    rw [fillAt]
    split <;> rfl
  | hop :: next :: path =>
    rw [fillAt]
    · split
      · rfl
      · split <;> rfl
    · nofun

theorem typeName_fill {s : Struct} {initializers : List Initializer} {r : Record} :
    (schema.fill s initializers r).typeName = r.typeName := by
  induction initializers generalizing r with
  | nil => rfl
  | cons i rest ih => exact ih.trans typeName_fillAt

end Schema

/-! ## Values inside a member -/

namespace Initializer

variable {i i' : Initializer} {name : String}

theorem head?_ne_of_inside? (h : i.inside? name = none) (hlast : i.path ≠ [name]) :
    i.path.head? ≠ some name := by
  intro hhead
  match hpath : i.path with
  | [] =>
    rw [hpath] at hhead
    cases hhead
  | [last] =>
    rw [hpath] at hhead
    cases hhead
    exact hlast hpath
  | head :: next :: path =>
    rw [hpath] at hhead
    cases hhead
    rw [inside?_eq_some.mpr ⟨next, path, hpath, rfl⟩] at h
    cases h

end Initializer

namespace Schema

variable {schema : Schema} {s t : Struct} {initializers : List Initializer} {r inner : Record}

/-- What a filled record says of a field that no path passes through. -/
theorem get?_fill_last {name : String}
    (hpaths : ∀ i ∈ initializers, i.path.head? = some name → i.path = [name]) :
    (schema.fill s initializers r).get? name =
      (r.get? name).or ((initializers.find? (·.isFor name)).map fun i => .int i.value) := by
  induction initializers generalizing r with
  | nil => exact (Option.or_none).symm
  | cons i rest ih =>
    have hrest := ih (r := schema.fillAt s i.path i.value r)
      fun j hj => hpaths j (List.mem_cons_of_mem _ hj)
    refine hrest.trans ?_
    by_cases hlast : i.path = [name]
    · have hfor : i.isFor name = true := by simp [Initializer.isFor, hlast]
      rw [hlast, get?_fillAt_last, Option.or_assoc, List.find?_cons, hfor]
      rfl
    · have hfor : i.isFor name = false := by simpa [Initializer.isFor] using hlast
      rw [get?_fillAt_of_ne fun hhead => hlast (hpaths i List.mem_cons_self hhead),
        List.find?_cons, hfor]

section Hops

variable {hop : String} {f : Field} (hf : s.field? hop = some f)
  (ht : schema.struct? f.typeName = some t) (hpaths : ∀ i ∈ initializers, i.path ≠ [hop])

include hf ht hpaths

theorem get?_fill_of_some (hinner : r.get? hop = some inner.toValue) :
    (schema.fill s initializers r).get? hop =
      some (schema.fill t (initializers.filterMap fun i => i.inside? hop) inner).toValue := by
  induction initializers generalizing r inner with
  | nil => exact hinner
  | cons i rest ih =>
    have hrest := fun j hj => hpaths j (List.mem_cons_of_mem _ hj)
    show (schema.fill s rest (schema.fillAt s i.path i.value r)).get? hop = _
    cases hinside : i.inside? hop with
    | none =>
      have hne := Initializer.head?_ne_of_inside? hinside (hpaths i List.mem_cons_self)
      simp only [List.filterMap_cons, hinside]
      exact ih hrest ((get?_fillAt_of_ne hne).trans hinner)
    | some i' =>
      obtain ⟨next, path, hpath, rfl⟩ := Initializer.inside?_eq_some.mp hinside
      simp only [List.filterMap_cons, hinside]
      rw [hpath, fillAt_hop hf ht (by rw [hinner]; rfl)]
      exact ih hrest (r.get?_insert_self _ _)

theorem get?_fill_of_none (hnone : r.get? hop = none)
    (hne : initializers.filterMap (fun i => i.inside? hop) ≠ []) :
    (schema.fill s initializers r).get? hop =
      some (schema.fill t (initializers.filterMap fun i => i.inside? hop)
        (Record.empty t.name)).toValue := by
  induction initializers generalizing r with
  | nil => exact absurd rfl hne
  | cons i rest ih =>
    have hrest := fun j hj => hpaths j (List.mem_cons_of_mem _ hj)
    show (schema.fill s rest (schema.fillAt s i.path i.value r)).get? hop = _
    cases hinside : i.inside? hop with
    | none =>
      have hhead := Initializer.head?_ne_of_inside? hinside (hpaths i List.mem_cons_self)
      simp only [List.filterMap_cons, hinside] at hne ⊢
      exact ih hrest ((get?_fillAt_of_ne hhead).trans hnone) hne
    | some i' =>
      obtain ⟨next, path, hpath, rfl⟩ := Initializer.inside?_eq_some.mp hinside
      simp only [List.filterMap_cons, hinside]
      rw [hpath, fillAt_hop hf ht (by rw [hnone]; rfl)]
      exact get?_fill_of_some hf ht hrest (r.get?_insert_self _ _)

/-- A nested record, which may be left out and is empty then, is filled with what lies inside it. -/
theorem get?_fill_hop (hinner : (r.get? hop).getD (Record.empty t.name).toValue = inner.toValue)
    (hne : initializers.filterMap (fun i => i.inside? hop) ≠ []) :
    (schema.fill s initializers r).get? hop =
      some (schema.fill t (initializers.filterMap fun i => i.inside? hop) inner).toValue := by
  cases hget : r.get? hop with
  | none =>
    rw [hget] at hinner
    rw [← Record.eq_of_toValue hinner]
    exact get?_fill_of_none hf ht hpaths hget hne
  | some v =>
    rw [hget] at hinner
    exact get?_fill_of_some hf ht hpaths (hget.trans (congrArg some hinner))

end Hops

theorem get?_fill_other {name : String} (hlast : ∀ i ∈ initializers, i.path ≠ [name])
    (hnil : initializers.filterMap (fun i => i.inside? name) = []) :
    (schema.fill s initializers r).get? name = r.get? name := by
  have hfind : initializers.find? (fun i => i.isFor name) = none := by
    rw [List.find?_eq_none]
    intro i hi hfor
    exact hlast i hi (by simpa [Initializer.isFor] using hfor)
  have hpaths : ∀ i ∈ initializers, i.path.head? = some name → i.path = [name] := by
    intro i hi hhead
    have hinside := List.filterMap_eq_nil_iff.mp hnil i hi
    exact absurd hhead (Initializer.head?_ne_of_inside? hinside (hlast i hi))
  rw [get?_fill_last hpaths, hfind, Option.map_none, Option.or_none]

/-! ## Records that may be filled in -/

/-- Whether initial values may be filled in: their paths lead where a value may be left out, to members
of types that are no structs, and past records of the right structs. -/
structure Fills (schema : Schema) (s : Struct) (initializers : List Initializer) (r : Record) :
    Prop where
  fillable : ∀ i ∈ initializers, schema.fillable s i.path = true
  leaves : ∀ i ∈ initializers, ∃ f, schema.fieldAt? s i.path = some f ∧
    schema.types.form? f.typeName ≠ none
  fits : ∀ i ∈ initializers, schema.fitsPath s i.path r = true

theorem fitsPath_empty (s : Struct) (path : List String) (typeName : String) :
    schema.fitsPath s path (Record.empty typeName) = true := by
  match path with
  | [] => rfl
  | [_] => rfl
  | _ :: _ :: _ => rfl

theorem fitsPath_hop {hop next : String} {path : List String} {f : Field} {v : Value}
    (hf : s.field? hop = some f) (ht : schema.struct? f.typeName = some t)
    (hv : r.get? hop = some v) (h : schema.fitsPath s (hop :: next :: path) r = true) :
    ∃ inner, v = inner.toValue ∧ inner.typeName = t.name ∧
      schema.fitsPath t (next :: path) inner = true := by
  rw [fitsPath, hv, hf, Option.bind_some, ht] at h
  simp only [Option.all_some, Option.any_some, Option.any_eq_true, Bool.and_eq_true,
    beq_iff_eq] at h
  obtain ⟨inner, hinner, htype, hfits⟩ := h
  exact ⟨inner, Value.record?_eq_some.mp hinner, htype, hfits⟩

theorem exists_inner {hop next : String} {path : List String} {f : Field}
    (hf : s.field? hop = some f) (ht : schema.struct? f.typeName = some t)
    (h : schema.fitsPath s (hop :: next :: path) r = true) :
    ∃ inner : Record, (r.get? hop).getD (Record.empty t.name).toValue = inner.toValue := by
  cases hget : r.get? hop with
  | none => exact ⟨Record.empty t.name, rfl⟩
  | some v =>
    obtain ⟨inner, hv, -, -⟩ := fitsPath_hop hf ht hget h
    exact ⟨inner, hv⟩

theorem Fills.inside {hop : String} {f : Field} (h : schema.Fills s initializers r)
    (hf : s.field? hop = some f) (ht : schema.struct? f.typeName = some t)
    (hinner : (r.get? hop).getD (Record.empty t.name).toValue = inner.toValue) :
    schema.Fills t (initializers.filterMap fun i => i.inside? hop) inner := by
  -- an initial value inside the member is one whose path goes on from there
  have hpath : ∀ i' ∈ initializers.filterMap fun i => i.inside? hop,
      ∃ i ∈ initializers, ∃ next path, i.path = hop :: next :: path ∧ i'.path = next :: path := by
    intro i' hi'
    obtain ⟨i, hi, next, path, hpath, rfl⟩ := Initializer.mem_inside.mp hi'
    exact ⟨i, hi, next, path, hpath, rfl⟩
  constructor
  case fillable =>
    intro i' hi'
    obtain ⟨i, hi, next, path, hi, hi'⟩ := hpath i' hi'
    have hfillable := h.fillable i ‹_›
    rw [hi] at hfillable
    obtain ⟨f', t', hf', -, -, ht', hrest⟩ := fillable_hop.mp hfillable
    obtain rfl := Option.some.inj (hf.symm.trans hf')
    obtain rfl := Option.some.inj (ht.symm.trans ht')
    rw [hi']
    exact hrest
  case leaves =>
    intro i' hi'
    obtain ⟨i, hi, next, path, hi, hi'⟩ := hpath i' hi'
    obtain ⟨g, hg, hform⟩ := h.leaves i ‹_›
    have hstep : schema.fieldAt? s (hop :: next :: path) =
        ((s.field? hop).bind fun f => schema.struct? f.typeName).bind
          fun t => schema.fieldAt? t (next :: path) := rfl
    rw [hi, hstep, hf, Option.bind_some, ht, Option.bind_some] at hg
    rw [hi']
    exact ⟨g, hg, hform⟩
  case fits =>
    intro i' hi'
    obtain ⟨i, hi, next, path, hi, hi'⟩ := hpath i' hi'
    have hfits := h.fits i ‹_›
    rw [hi] at hfits
    rw [hi']
    cases hget : r.get? hop with
    | none =>
      rw [hget] at hinner
      rw [← Record.eq_of_toValue hinner]
      exact fitsPath_empty t _ _
    | some v =>
      obtain ⟨inner', hv, -, hfits⟩ := fitsPath_hop hf ht hget hfits
      rw [hget, hv] at hinner
      rw [← Record.eq_of_toValue hinner]
      exact hfits

end Schema

/-! ## Filled records are interchangeable -/

/-- The relation between a record and the record with the foremost initial values filled in. -/
def Codec.filled (c : Codec) : Pairing := fun name initial r r' =>
  r' = r ∨ ∃ s plan first rest, c.lookup name = .ok (s, plan) ∧
    initial ++ plan.initializers = first ++ rest ∧ c.schema.Fills s first r ∧
    r' = c.schema.fill s first r

theorem Codec.filled_refl (c : Codec) (r : Record) : c.filled.All r r := fun _ _ => Or.inl rfl

theorem Frame.nested_of_getD {frame : Frame} {field ty : String} {inner : Record}
    (hne : frame.initialInside field ≠ [])
    (hinner : (frame.record.get? field).getD (Record.empty ty).toValue = inner.toValue) :
    frame.nested field ty = .ok inner := by
  unfold nested
  cases hget : frame.record.get? field with
  | none =>
    rw [hget] at hinner
    dsimp only
    rw [if_neg fun hempty => hne (List.isEmpty_iff.mp hempty), Record.eq_of_toValue hinner]
  | some v =>
    rw [hget] at hinner
    exact asRecord_eq_ok.mpr hinner

theorem Frame.Stands.of_get?_eq {frame : Frame} {schema : Schema} {N : Pairing} {r' : Record}
    {f : Field} (hN : ∀ r, N.All r r) (h : r'.get? f.name = frame.record.get? f.name) :
    frame.Stands schema N r' f := by
  cases hget : frame.record.get? f.name with
  | none => exact .absent hget (h.trans hget)
  | some v => exact .alike hget (h.trans hget) (.refl hN v)

section Step

variable {c : Codec} {name : String} {initial first rest : List Initializer} {r : Record}
  {s : Struct} {plan : Plan} (hc : c.Sound) (hl : c.lookup name = .ok (s, plan))
  (hfirst : initial ++ plan.initializers = first ++ rest) (h : c.schema.Fills s first r)

include hc hl hfirst h

/-- A member that is filled in takes its initial value, or has a value already. -/
theorem Schema.Fills.stands_last {f : Field} (hf : f ∈ s.fields) {i : Initializer} (hi : i ∈ first)
    (hpath : i.path = [f.name]) :
    Frame.Stands { struct := s, plan, record := r, initial := initial ++ plan.initializers }
      c.schema c.filled (c.schema.fill s first r) f := by
  obtain ⟨hstruct, hs, -⟩ := hc.planned_of_lookup hl
  have hfield := Struct.field?_of_mem (hc.linked.wellFormed s hs).names hf
  have hfillable := h.fillable i hi
  rw [hpath] at hfillable
  obtain ⟨f', hf', hplain, hunion, hregion⟩ := Schema.fillable_last.mp hfillable
  obtain rfl := Option.some.inj (hfield.symm.trans hf')
  obtain ⟨g, hg, hform⟩ := h.leaves i hi
  rw [hpath, Schema.fieldAt?] at hg
  obtain rfl := Option.some.inj (hfield.symm.trans hg)
  -- no path goes on from a plain field
  have hpaths : ∀ j ∈ first, j.path.head? = some f.name → j.path = [f.name] := by
    intro j hj hhead
    have hfillable := h.fillable j hj
    rcases hjpath : j.path with _ | ⟨hop, _ | ⟨next, path⟩⟩
    · rw [hjpath] at hhead
      cases hhead
    · rw [hjpath] at hhead
      rw [Option.some.inj hhead]
    · rw [hjpath] at hhead hfillable
      cases hhead
      obtain ⟨f', t, hf', hinline, -⟩ := Schema.fillable_hop.mp hfillable
      obtain rfl := Option.some.inj (hfield.symm.trans hf')
      rw [hplain] at hinline
      cases hinline
  have hget : (c.schema.fill s first r).get? f.name = _ := Schema.get?_fill_last hpaths
  cases hr : r.get? f.name with
  | some v =>
    rw [hr, Option.some_or] at hget
    exact .alike hr hget (.refl c.filled_refl v)
  | none =>
    rw [hr, Option.none_or] at hget
    have hfor : i.isFor f.name = true := by simp [Initializer.isFor, hpath]
    have hfound : (first.find? fun i => i.isFor f.name).isSome = true :=
      List.find?_isSome.mpr ⟨i, hi, hfor⟩
    obtain ⟨k, hk⟩ := Option.isSome_iff_exists.mp hfound
    rw [hk] at hget
    refine .initial hplain hform hunion hregion hr ?_ hget
    unfold Frame.initial?
    rw [hfirst, List.find?_append, hk]
    rfl

theorem Schema.Fills.stands_hop (hapart : c.schema.Apart) {f : Field} (hf : f ∈ s.fields)
    (hlast : ∀ i ∈ first, i.path ≠ [f.name])
    (hne : first.filterMap (fun i => i.inside? f.name) ≠ []) :
    Frame.Stands { struct := s, plan, record := r, initial := initial ++ plan.initializers }
      c.schema c.filled (c.schema.fill s first r) f := by
  obtain ⟨hstruct, hs, -⟩ := hc.planned_of_lookup hl
  have hfield := Struct.field?_of_mem (hc.linked.wellFormed s hs).names hf
  obtain ⟨i', hi'⟩ := List.exists_mem_of_ne_nil _ hne
  obtain ⟨i, hi, hinside⟩ := List.mem_filterMap.mp hi'
  obtain ⟨next, path, hpath, -⟩ := Initializer.inside?_eq_some.mp hinside
  have hfillable := h.fillable i hi
  have hfits := h.fits i hi
  rw [hpath] at hfillable hfits
  obtain ⟨f', t, hf', hinline, hunion, ht, -⟩ := Schema.fillable_hop.mp hfillable
  obtain rfl := Option.some.inj (hfield.symm.trans hf')
  have hembeds : c.schema.embeds f = true := by
    have hdeclared : c.schema.hasStruct f.typeName = true := Option.isSome_iff_exists.mpr ⟨t, ht⟩
    simp [Schema.embeds, Field.isStored, hinline, hdeclared]
  have htname := (Schema.mem_of_struct? ht).2
  have hinitial : ∀ r, Frame.initialInside
      { struct := s, plan, record := r, initial := initial ++ plan.initializers } f.name =
        first.filterMap (fun i => i.inside? f.name) ++ rest.filterMap fun i => i.inside? f.name := by
    intro r
    unfold Frame.initialInside
    rw [hfirst, List.filterMap_append]
  obtain ⟨plan', -, hl'⟩ := hc.lookup_of_struct? ht
  obtain ⟨inner, hinner⟩ := Schema.exists_inner hfield ht hfits
  refine @Frame.Stands.nested _ _ _ _ _ inner
    (c.schema.fill t (first.filterMap fun i => i.inside? f.name) inner)
    hembeds (hapart _ _ ht) hunion ?_ ?_ ?_
  · refine Frame.nested_of_getD ?_ (htname ▸ hinner)
    rw [hinitial]
    exact fun hnil => hne (List.append_eq_nil_iff.mp hnil).1
  · unfold Frame.nested
    rw [Frame.withRecord_record, Schema.get?_fill_hop hfield ht hlast hinner hne]
    exact asRecord_eq_ok.mpr rfl
  · -- what is filled in comes first inside, too
    rw [hinitial]
    refine Or.inr ⟨t, plan', _, rest.filterMap (fun i => i.inside? f.name) ++ plan'.initializers,
      hl', List.append_assoc _ _ _, h.inside hfield ht hinner, rfl⟩

end Step

/-- A record and the record with initial values filled in answer all that is asked of them alike. -/
theorem Codec.Sound.bisimulation_filled {c : Codec} (hc : c.Sound) (hapart : c.schema.Apart) :
    c.Bisimulation c.filled where
  typeName := by
    rintro name initial r r' (rfl | ⟨s, plan, first, rest, -, -, -, rfl⟩)
    · rfl
    · exact Schema.typeName_fill
  step := by
    intro name initial r r' h frame hframe
    obtain ⟨s, plan, hl, -, rfl⟩ := Codec.frame_eq_ok.mp hframe
    refine ⟨fun f hf => ?_, fun f _ _ => Or.inl rfl⟩
    rcases h with rfl | ⟨s', plan', first, rest, hl', hfirst, hfills, rfl⟩
    · exact .of_get?_eq c.filled_refl rfl
    · obtain ⟨rfl, rfl⟩ := Prod.mk.inj (Except.ok.inj (hl.symm.trans hl'))
      by_cases hlast : ∃ i ∈ first, i.path = [f.name]
      · obtain ⟨i, hi, hpath⟩ := hlast
        exact hfills.stands_last hc hl hfirst hf hi hpath
      · have hlast : ∀ i ∈ first, i.path ≠ [f.name] := fun i hi hpath => hlast ⟨i, hi, hpath⟩
        by_cases hnil : first.filterMap (fun i => i.inside? f.name) = []
        · exact .of_get?_eq c.filled_refl (Schema.get?_fill_other hlast hnil)
        · exact hfills.stands_hop hc hl hfirst hapart hf hlast hnil

theorem Schema.leaf_of_initializers {options : Options} {schema : Schema} {dispatch : Dispatch}
    {s : Struct} (hs : schema.struct? s.name = some s) {i : Initializer}
    (hi : i ∈ schema.initializers dispatch options s) :
    ∃ f, schema.fieldAt? s i.path = some f ∧ schema.types.form? f.typeName ≠ none := by
  have hmember : ∀ {path : List String} {field : String} {f : Field},
      schema.memberPath? s.name field = some path → schema.member? s.name field = some f →
      schema.fieldAt? s path = some f := by
    intro path field f hpath hf
    unfold member? at hf
    rwa [hpath, Option.bind_some, hs, Option.bind_some] at hf
  have hform : ∀ {f : Field} {t : IntType}, schema.types.intType? f.typeName = some t →
      schema.types.form? f.typeName ≠ none := by
    intro f t ht
    rw [TypeTable.form?_of_intType? ht]
    exact Option.some_ne_none _
  unfold initializers at hi
  split at hi
  · cases hi
  rcases List.mem_append.mp hi with hi | hi
  · obtain ⟨path, hpath, hi⟩ := Option.bind_eq_some_iff.mp (Option.mem_toList.mp hi)
    obtain ⟨f, hf, hi⟩ := Option.bind_eq_some_iff.mp hi
    split at hi
    · rename_i henum
      cases hi
      obtain ⟨t, ht⟩ := TypeTable.intType_of_isEnum (Bool.and_eq_true_iff.mp henum).2
      exact ⟨f, hmember hpath hf, hform ht⟩
    · cases hi
  · obtain ⟨version, -, hi⟩ := Option.bind_eq_some_iff.mp (Option.mem_toList.mp hi)
    obtain ⟨field, -, hi⟩ := Option.bind_eq_some_iff.mp hi
    obtain ⟨f, hf, hi⟩ := Option.bind_eq_some_iff.mp hi
    split at hi
    · rename_i hnumber
      obtain ⟨path, hpath, rfl⟩ := Option.map_eq_some_iff.mp hi
      obtain ⟨t, ht⟩ := TypeTable.intType_of_isNumber (Bool.and_eq_true_iff.mp hnumber).2
      exact ⟨f, hmember hpath hf, hform ht⟩
    · cases hi

/-- **Leaving a discriminator out is the same as writing it.** A record and the record with the initial
values of its struct filled in have the same bytes and the same size, or fail alike. -/
theorem encode_fill {options : Options} {decls : List Declaration} {c : Codec}
    (h : compile options decls = .ok c) {r : Record} {s : Struct} {plan : Plan}
    (hl : c.lookup r.typeName = .ok (s, plan))
    (hfillable : ∀ i ∈ plan.initializers, c.schema.fillable s i.path = true)
    (hfits : ∀ i ∈ plan.initializers, c.schema.fitsPath s i.path r = true) :
    c.encode r = c.encode (c.schema.fill s plan.initializers r) ∧
      c.size r = c.size (c.schema.fill s plan.initializers r) := by
  have hc := sound_of_compile h
  have hbisim := hc.bisimulation_filled (Schema.apart_of_compile h)
  have hacyclic := Schema.not_embeds_self_of_compile h
  obtain ⟨hstruct, hs, hname, -⟩ := hc.planned_of_lookup hl
  have hfilled : c.filled r.typeName [] r (c.schema.fill s plan.initializers r) := by
    refine Or.inr ⟨s, plan, plan.initializers, [], hl, by simp, ⟨hfillable, ?_, hfits⟩, rfl⟩
    intro i hi
    rw [initializers_of_lookup h hl] at hi
    exact Schema.leaf_of_initializers (hname ▸ hstruct) hi
  exact ⟨hbisim.encode_eq hc hacyclic hfilled, hbisim.size_eq hc hacyclic hfilled⟩

/-- A transfer may leave out its header, which only holds the discriminator. -/
theorem encode_fill_transfer :
    ∃ s plan, sampleCodec.lookup "Transfer" = .ok (s, plan) ∧
      plan.initializers = [{ path := ["Header", "kind"], value := 1 }] ∧
      let r : Record := { typeName := "Transfer", fields := [("amount", .int 3)] }
      sampleCodec.encode r = sampleCodec.encode (sampleCodec.schema.fill s plan.initializers r) ∧
        sampleCodec.size r = sampleCodec.size (sampleCodec.schema.fill s plan.initializers r) := by
  obtain ⟨⟨s, plan⟩, hl, hinitializers, hfillable, hfits⟩ :
      ∃ q, sampleCodec.lookup "Transfer" = .ok q ∧
        q.2.initializers = [{ path := ["Header", "kind"], value := 1 }] ∧
        (∀ i ∈ q.2.initializers, sampleCodec.schema.fillable q.1 i.path = true) ∧
        ∀ i ∈ q.2.initializers, sampleCodec.schema.fitsPath q.1 i.path
          { typeName := "Transfer", fields := [("amount", .int 3)] } = true :=
    exists_ok_of_toOption (by decide +kernel)
  exact ⟨s, plan, hl, hinitializers, encode_fill compile_sample hl hfillable hfits⟩

end WireLayout
