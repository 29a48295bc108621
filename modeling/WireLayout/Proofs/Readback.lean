import WireLayout.Proofs.Replay

/-!
# Reading back place by place

A reader of a written record goes through the places of the struct. In each it takes the bytes of the
entry, resolves the unions whose tested field is known by then and compares the sizes that were
promised. After a place it knows of the written record what is ready by then, and nothing else, so
after the last place it has the record.
-/

namespace WireLayout

/-- The names that are known once the entry of a place was read: those of unions are not. -/
def Struct.Entered (s : Struct) (slots : List UnionSlot) (place : Nat) (x : String) : Prop :=
  s.ready slots x < place ∨ s.ready slots x = place ∧ s.unionOf? x = none

namespace Codec

variable {c : Codec} {s : Struct} {plan : Plan} {r : Record} {initial : List Initializer}
  {slots : List UnionSlot} {entries : List (Option WireEntry)} {m : Nat} {cur : Nat → Cursor}
  {known : String → Prop} {place : Nat} {p q : Progress}

/-- What is known depends on which names are. -/
theorem Replays.congr {frame : Frame} {e : Encoder} {known' : String → Prop}
    (hp : c.Replays frame slots e known place p) (h : ∀ x, known x ↔ known' x) :
    c.Replays frame slots e known' place p :=
  { hp with
    settled := fun x hx => hp.settled x ((h x).mpr hx)
    pending := fun x hx => hp.pending x fun hk => hx ((h x).mp hk) }

section Entry

variable {i : Nat} {f : Field} (h : c.Written s plan r initial slots entries m cur)
  (hp : c.Replays (Frame.mk s plan r initial) slots (c.encodeAt m) (s.ready slots · < i) i p)
  (hi : s.fields[i]? = some f)

include h

/-- A name that no field has is not in the record. -/
theorem Written.get?_of_no_field {x : String} (hx : ∀ g ∈ s.fields, g.name ≠ x) :
    r.get? x = none := by
  rw [← Option.not_isSome_iff_eq_none, h.here.fields s plan h.lookup x]
  rintro ⟨g, hg, hname, -⟩
  exact hx g hg hname

/-- A field that has a place of its own is that of the place where it is ready. -/
theorem Written.eq_of_ready (hi : s.fields[i]? = some f) {g : Field} (hg : g ∈ s.fields)
    (hunion : s.unionOf? g.name = none) (hready : s.ready slots g.name = i) : g = f := by
  obtain ⟨k, hk⟩ := List.mem_iff_getElem?.mp hg
  have hown := h.planned.ready_of_own h.wellFormed hk hunion
  rw [← hown, hready] at hk
  rw [hi] at hk
  exact (Option.some.inj hk).symm

include hp hi

/-- The entry of a field of its own is read back. -/
theorem Replays.readOwn (hlengths : c.schema.LengthsUncounted) (hconst : f.isConst = false)
    (hunion : s.unionOf? f.name = none) {shape : WireShape} (hshape : c.schema.Shaped s f shape)
    {e : WireEntry}
    (he : e = { field := f.name, role := f.disposition.role, guard := f.condition, shape })
    (hentry : entries[i]? = some (some e)) (hcur : p.cursor = cur i) :
    ∃ q, c.readStep c.decoder s plan p (e.step (e.decodeOp s)) = .ok q ∧
      c.Settles (Frame.mk s plan r initial) f (cur (i + 1)) p q := by
  subst he
  have hs := h.wellFormed
  have hf := List.mem_of_getElem? hi
  obtain ⟨chunk, hchunk, hreads⟩ := h.entry i _ hentry
  rw [← hcur] at hreads
  obtain ⟨b, hb, hchunk⟩ := bind_eq_ok.mp hchunk
  have hholds := (hp.knows h).holds hs hi (Nat.le_refl i) hconst hunion hb
  cases b with
  | false =>
    -- nothing was written, and the record does not hold the field
    cases hchunk
    have hown := h.planned.ready_of_own hs hi hunion
    have hnone := h.get?_of_dropped hf hunion (Or.inr (Or.inr (Or.inr hb)))
    refine ⟨p, bind_eq_ok.mpr ⟨false, hholds, rfl⟩, hreads.eq_of_nil.symm, rfl, ?_,
      fun ht => ?_, fun target _ htrue => ?_⟩
    · exact (hp.pending f.name (Nat.not_lt.mpr (Nat.le_of_eq hown.symm))).trans hnone.symm
    · have hb : (Frame.mk s plan r initial).holds c.measure f.condition = .ok false := hb
      rw [ht.plain.2] at hb
      cases hb
    · have hfalse := htrue.symm.trans hb
      cases hfalse
  | true =>
    have hread : ∃ q, c.readOp c.decoder s plan f.name p (WireEntry.decodeOp s
        { field := f.name, role := f.disposition.role, guard := f.condition, shape }) = .ok q ∧
        c.Settles (Frame.mk s plan r initial) f (cur (i + 1)) p q := by
      cases hshape with
      | leaf hstored _ => exact hp.readLeaf h hi hunion hreads hstored hb hchunk
      | nested hstored hform _ => exact Replays.readNested h hi hunion hreads hstored hform hb hchunk
      | reserved hd _ => exact hp.readReserved h hi hunion hreads hd hchunk
      | array hd helement => exact hp.readArray h hi hreads hd helement hchunk
      | arraySized hd hgroup => exact hp.readRegion h hi hreads hlengths hd hgroup hchunk
      | fill hd helement =>
        have hend : (cur (i + 1)).rest = [] := by
          rw [hs.fill i f hi hd, ← h.planned.length]
          exact (h.fill f hf hd).1
        exact Replays.readFill h hi hreads hd helement hend hchunk
    obtain ⟨q, hq, hsettles⟩ := hread
    exact ⟨q, bind_eq_ok.mpr ⟨true, hholds, hq⟩, hsettles⟩

/-- What is known once the entry of a place was read, which changes nothing but a field of its own. -/
theorem Replays.enter (hagree : ∀ x, x ≠ f.name ∨ (s.unionOf? x).isSome = true → p.Agree x q)
    {next : Cursor}
    (hown : s.unionOf? f.name = none → c.Settles (Frame.mk s plan r initial) f next p q)
    (hslots : ∀ slot ∈ slots, slot.position < i + 1 → ∀ raw,
      (Frame.mk s plan r initial).opBytes c.schema c.measure (c.encodeAt m) slot.name
        (.union slot.bytes slot.members) = .ok raw → q.slots.lookup slot.name = some raw) :
    c.Replays (Frame.mk s plan r initial) slots (c.encodeAt m) (s.Entered slots i) (i + 1) q := by
  have hs := h.wellFormed
  have hf := List.mem_of_getElem? hi
  -- an integer or a size that was known stays known
  have hkept : ∀ k g, s.fields[k]? = some g → k < i + 1 → s.unionOf? g.name = none → ∀ n : Int,
      (k < i → p.scratch.lookup g.name = some n) →
      (k = i → g = f → q.scratch.lookup f.name = some n) → q.scratch.lookup g.name = some n := by
    intro k g hk hlt hnone n hbefore hnow
    by_cases hki : k = i
    · have hgf : g = f := by
        rw [hki, hi] at hk
        exact (Option.some.inj hk).symm
      rw [hgf]
      exact hnow hki hgf
    · have hne : g.name ≠ f.name := by
        intro hname
        have hready := h.planned.ready_of_own hs hk hnone
        obtain rfl := List.inj_on_of_nodup_map hs.names (List.mem_of_getElem? hk) hf hname
        exact hki (hready.symm.trans (h.planned.ready_of_own hs hi hnone))
      rw [(hagree _ (Or.inl hne)).scratch]
      exact hbefore (by omega)
  constructor
  case settled =>
    intro x hx
    by_cases hname : x = f.name ∧ s.unionOf? x = none
    · obtain ⟨rfl, hnone⟩ := hname
      exact (hown hnone).record
    · have hsame : p.Agree x q := by
        refine hagree x ?_
        rw [← Option.ne_none_iff_isSome]
        exact not_and_or.mp hname
      rw [hsame.record]
      rcases hx with hlt | ⟨hready, hnone⟩
      · exact hp.settled x hlt
      · rw [hp.pending x (by omega)]
        refine (h.get?_of_no_field fun g hg hgname => ?_).symm
        subst hgname
        exact hname ⟨congrArg Field.name (h.eq_of_ready hi hg hnone hready), hnone⟩
  case pending =>
    intro x hx
    obtain ⟨hlt, hnot⟩ := not_or.mp hx
    have hsame : p.Agree x q := by
      refine hagree x (or_iff_not_imp_left.mpr fun hname => ?_)
      have hname : x = f.name := not_not.mp hname
      rw [← Option.ne_none_iff_isSome]
      intro hnone
      refine hnot ⟨?_, hnone⟩
      rw [hname] at hnone ⊢
      exact h.planned.ready_of_own hs hi hnone
    rw [hsame.record]
    exact hp.pending x hlt
  case tested =>
    intro k g hk hlt ht n hn
    have hnone := Struct.unionOf?_of_unconditioned hs.names (List.mem_of_getElem? hk) ht.plain.2
    refine hkept k g hk hlt hnone n (fun hki => hp.tested k g hk hki ht n hn) ?_
    rintro - rfl
    exact (hown hnone).tested ht n hn
  case promised =>
    intro k g hk hlt target htarget hholds n hn
    have hd := Field.disposition_of_sizeOfTarget? htarget
    have hnone := h.planned.unionOf?_of_not_stored hs (List.mem_of_getElem? hk)
      (by simp [Field.isStored, hd])
    refine hkept k g hk hlt hnone n
      (fun hki => hp.promised k g hk hki target htarget hholds n hn) ?_
    rintro - rfl
    exact (hown hnone).promised target htarget hholds n hn
  case slots => exact hslots

/-- The entry of a place is read back, if there is one. -/
theorem Replays.readEntry (hlengths : c.schema.LengthsUncounted) (hcur : p.cursor = cur i) :
    ∃ o q, entries[i]? = some o ∧ (o.map fun e => e.step (e.decodeOp s)).toList.foldlM
        (c.readStep c.decoder s plan) p = .ok q ∧ q.cursor = cur (i + 1) ∧
      c.Replays (Frame.mk s plan r initial) slots (c.encodeAt m) (s.Entered slots i) (i + 1) q := by
  have hs := h.wellFormed
  have hf := List.mem_of_getElem? hi
  -- where no slot lies in the place, the bytes of the slots before it are all there is
  have hslots : (∀ slot ∈ slots, slot.position ≠ i) → ∀ slot ∈ slots, slot.position < i + 1 →
      ∀ raw, (Frame.mk s plan r initial).opBytes c.schema c.measure (c.encodeAt m) slot.name
        (.union slot.bytes slot.members) = .ok raw → p.slots.lookup slot.name = some raw := by
    intro hno slot hslot hlt
    have hne := hno slot hslot
    exact hp.slots slot hslot (by omega)
  have hnone : s.unionOf? f.name = none → ∀ slot ∈ slots, slot.position ≠ i := by
    rintro hunion slot hslot rfl
    obtain ⟨g, hg⟩ := h.planned.unionOf?_of_slot hs hslot hi
    rw [hunion] at hg
    cases hg
  obtain ⟨o, ho, hentry⟩ := h.planned.places i f hi
  refine ⟨o, ?_⟩
  cases hentry with
  | const hconst hunion =>
    have hown := h.planned.ready_of_own hs hi hunion
    have hsettles : c.Settles (Frame.mk s plan r initial) f p.cursor p p := by
      refine ⟨rfl, rfl, ?_, fun ht => ?_, fun target htarget => ?_⟩
      · have hdropped := h.get?_of_dropped hf hunion (Or.inl hconst)
        exact (hp.pending _ (Nat.not_lt.mpr (Nat.le_of_eq hown.symm))).trans hdropped.symm
      · simp [Field.isConst, ht.plain.1, Disposition.role] at hconst
      · have hd := Field.disposition_of_sizeOfTarget? htarget
        simp [Field.isConst, hd, Disposition.role] at hconst
    exact ⟨p, ho, rfl, hcur.trans (h.skip i ho).symm, hp.enter h hi (fun x _ => .refl x p)
      (fun _ => hsettles) (hslots (hnone hunion))⟩
  | own hconst hunion hshape =>
    obtain ⟨q, hq, hsettles⟩ := hp.readOwn h hi hlengths hconst hunion hshape rfl ho hcur
    refine ⟨q, ho, ?_, hsettles.cursor, hp.enter h hi (fun x hx => ?_) (fun _ => hsettles) ?_⟩
    · rw [Option.map_some, Option.toList_some, List.foldlM_cons]
      exact bind_eq_ok.mpr ⟨q, hq, rfl⟩
    · refine agree_of_readStep hq fun hmem => ?_
      obtain rfl := hshape.eq_of_settles hmem
      rw [hunion] at hx
      simp at hx
    · rw [hsettles.slots]
      exact hslots (hnone hunion)
  | @slot slot hslot hpos _ =>
    obtain ⟨raw, hraw, hreads⟩ := h.entry i _ ho
    rw [← hcur] at hreads
    have hunion : s.unionOf? f.name = none → c.Settles (Frame.mk s plan r initial) f p.cursor p
        { p with slots := (slot.name, raw) :: p.slots, cursor := cur (i + 1) } := by
      intro hnone
      obtain ⟨g, hg⟩ := h.planned.unionOf?_of_slot hs hslot (hpos ▸ hi)
      rw [hnone] at hg
      cases hg
    refine ⟨_, ho, ?_, rfl, hp.enter h hi ?_ hunion ?_⟩
    · rw [Option.map_some, Option.toList_some, List.foldlM_cons]
      exact bind_eq_ok.mpr ⟨_, readStep_of_slot hraw hreads, rfl⟩
    · exact fun x _ => ⟨rfl, rfl⟩
    · exact h.planned.kept_cons hs hslot hpos hraw hp.slots
  | member hsome hno =>
    refine ⟨p, ho, rfl, hcur.trans (h.skip i ho).symm, ?_⟩
    have hunion : s.unionOf? f.name = none → c.Settles (Frame.mk s plan r initial) f p.cursor p p := by
      intro hunion
      rw [hunion] at hsome
      cases hsome
    exact hp.enter h hi (fun x _ => .refl x p) hunion (hslots hno)

end Entry

/-! ## Unions -/

section Unions

variable {slot : UnionSlot} (h : c.Written s plan r initial slots entries m cur)
  (hp : c.Replays (Frame.mk s plan r initial) slots (c.encodeAt m) known place p)
  (hslot : slot ∈ slots)

include h hp hslot

/-- What is known once a union was resolved, which changes nothing but its members. -/
theorem Replays.resolved (hagree : ∀ x, x ∉ slot.members.map (·.field) → p.Agree x q)
    (hmembers : ∀ u ∈ slot.members, q.record.get? u.field = r.get? u.field)
    (hslots : q.slots = p.slots) :
    c.Replays (Frame.mk s plan r initial) slots (c.encodeAt m)
      (fun x => known x ∨ x ∈ slot.members.map (·.field)) place q := by
  have hs := h.wellFormed
  constructor
  case settled =>
    intro x hx
    by_cases hmem : x ∈ slot.members.map (·.field)
    · obtain ⟨u, hu, rfl⟩ := List.mem_map.mp hmem
      exact hmembers u hu
    · rw [(hagree x hmem).record]
      exact hp.settled x (hx.resolve_right hmem)
  case pending =>
    intro x hx
    obtain ⟨hknown, hmem⟩ := not_or.mp hx
    rw [(hagree x hmem).record]
    exact hp.pending x hknown
  case tested =>
    intro k g hk hlt ht n hn
    have hnone := Struct.unionOf?_of_unconditioned hs.names (List.mem_of_getElem? hk) ht.plain.2
    rw [(hagree _ (h.planned.not_member hs hslot hnone)).scratch]
    exact hp.tested k g hk hlt ht n hn
  case promised =>
    intro k g hk hlt target htarget hholds n hn
    have hd := Field.disposition_of_sizeOfTarget? htarget
    have hnone := h.planned.unionOf?_of_not_stored hs (List.mem_of_getElem? hk)
      (by simp [Field.isStored, hd])
    rw [(hagree _ (h.planned.not_member hs hslot hnone)).scratch]
    exact hp.promised k g hk hlt target htarget hholds n hn
  case slots =>
    rw [hslots]
    exact hp.slots

/-- A union is resolved: of its members, the one that was written is read back. -/
theorem Replays.resolve (hready : s.slotReady slot < place)
    (hnew : ∀ u ∈ slot.members, ¬ known u.field) :
    ∃ q, c.readStep c.decoder s plan p (Struct.resolveStep slot) = .ok q ∧ q.cursor = p.cursor ∧
      c.Replays (Frame.mk s plan r initial) slots (c.encodeAt m)
        (fun x => known x ∨ x ∈ slot.members.map (·.field)) place q := by
  have hs := h.wellFormed
  -- the field that the members test was read, and so were the bytes of the union
  obtain ⟨k, g, hk, hname, ht, hle⟩ := h.planned.tested_of_slot hs hslot
  obtain ⟨t, hn, hlookup, -⟩ := hp.noted h hk (Nat.lt_of_le_of_lt hle hready) ht
  rw [hname] at hn hlookup
  obtain ⟨raw, hraw, -⟩ := h.entry _ _ (h.planned.entry_of_slot hs hslot)
  rw [Frame.stepBytes_slotEntry] at hraw
  have hkept := hp.slots slot hslot
    (Nat.lt_of_le_of_lt (Struct.position_le_slotReady slot) hready) raw hraw
  have hpresent := fun u hu => h.here.isSome_of_member h.lookup hs h.planned initial hslot hn
    (m := u) hu
  rcases readStep_of_kept hraw (h.planned.guard_of_slot hs hslot) hn hlookup hkept with
    ⟨hfind, hstep⟩ | ⟨u, v, bytes, last, hfind, hv, hbytes, -, hreads, hstep⟩
  · rw [hfind] at hpresent
    refine ⟨p, hstep, rfl, hp.resolved h hslot (fun x _ => .refl x p) (fun u hu => ?_) rfl⟩
    rw [hp.pending _ (hnew u hu), eq_comm, ← Option.not_isSome_iff_eq_none, hpresent u hu]
    simp
  · rw [hfind] at hpresent
    have hu := List.mem_of_find?_eq_some hfind
    have hv : r.get? u.field = some v := by
      obtain ⟨v', hv'⟩ := Option.isSome_iff_exists.mp ((hpresent u hu).mpr rfl)
      simp only [Frame.value, hv'] at hv
      exact hv'.trans (congrArg some (Except.ok.inj hv))
    obtain ⟨f, hf, -, hstored, -, -, helement, -⟩ := h.planned.member_of_slot hs hslot hu
    have hproper : ∀ x, v = Record.toValue x → c.Proper x := by
      rintro x rfl
      exact h.proper.within (Record.within_of_get? hv)
    have hread := h.rereads.element hbytes hproper
      (h.free_element hf (Field.isConst_of_isStored hstored) (Field.sizedArray?_of_isStored hstored)
        helement) hreads
    rw [hread, ok_map] at hstep
    refine ⟨_, hstep, p.cursor_noteValue _ _, hp.resolved h hslot (fun x hx => ?_)
      (fun u' hu' => ?_) (p.slots_noteValue _ _)⟩
    · exact agree_of_readStep hstep hx
    · by_cases hsame : u'.field = u.field
      · rw [hsame, hv]
        exact Record.get?_insert_self _ _ _
      · have hother := (Progress.Agree.noteValue hsame p v).trans (Progress.Agree.store hsame _ v)
        rw [hother.record, hp.pending _ (hnew u' hu'), eq_comm, ← Option.not_isSome_iff_eq_none,
          hpresent u' hu', Option.map_some, Option.some.injEq]
        exact fun hname => hsame hname.symm

end Unions

/-- Unions are resolved one after the other. -/
theorem Replays.resolveAll {l : List UnionSlot} (h : c.Written s plan r initial slots entries m cur)
    (hp : c.Replays (Frame.mk s plan r initial) slots (c.encodeAt m) known place p)
    (hl : ∀ slot ∈ l, slot ∈ slots ∧ s.slotReady slot < place) (hnodup : l.Nodup)
    (hnew : ∀ slot ∈ l, ∀ u ∈ slot.members, ¬ known u.field) :
    ∃ q, (l.map Struct.resolveStep).foldlM (c.readStep c.decoder s plan) p = .ok q ∧
      q.cursor = p.cursor ∧ c.Replays (Frame.mk s plan r initial) slots (c.encodeAt m)
        (fun x => known x ∨ ∃ slot ∈ l, x ∈ slot.members.map (·.field)) place q := by
  induction l generalizing known p with
  | nil => exact ⟨p, rfl, rfl, hp.congr fun x => by simp⟩
  | cons slot rest ih =>
    obtain ⟨hslot, hready⟩ := hl slot (by simp)
    obtain ⟨hnotin, hnodup⟩ := List.nodup_cons.mp hnodup
    obtain ⟨q, hq, hcursor, hp'⟩ := hp.resolve h hslot hready (hnew slot (by simp))
    have hrest : ∀ x ∈ rest, ∀ u ∈ x.members,
        ¬ (known u.field ∨ u.field ∈ slot.members.map (·.field)) := by
      rintro x hx u hu (hknown | hmem)
      · exact hnew x (List.mem_cons_of_mem _ hx) u hu hknown
      · -- no other slot has a member of the same name
        obtain ⟨u', hu', hname⟩ := List.mem_map.mp hmem
        obtain ⟨hxslot, -⟩ := hl x (List.mem_cons_of_mem _ hx)
        have hsame := h.planned.slot_of_member h.wellFormed hxslot hslot hu hu' hname
        exact hnotin (hsame ▸ hx)
    obtain ⟨q', hq', hcursor', hp''⟩ :=
      ih hp' (fun x hx => hl x (List.mem_cons_of_mem _ hx)) hnodup hrest
    refine ⟨q', ?_, hcursor'.trans hcursor, hp''.congr fun x => ?_⟩
    · rw [List.map_cons, List.foldlM_cons]
      exact bind_eq_ok.mpr ⟨q, hq, hq'⟩
    · rw [or_assoc, List.exists_mem_cons_iff]

/-! ## Places -/

section Places

variable {i : Nat} (h : c.Written s plan r initial slots entries m cur)

include h

/-- A promised size is the one that was written. -/
theorem Replays.check (hsettled : c.schema.PromisesSettled)
    (hp : c.Replays (Frame.mk s plan r initial) slots (c.encodeAt m) (s.ready slots · < i + 1)
      (i + 1) p) {step : Step DecodeOp} (hstep : step ∈ s.checksAt slots i) :
    c.readStep c.decoder s plan p step = .ok p := by
  obtain ⟨k, f, target, hk, htarget, hle, hready, rfl⟩ := Struct.exists_of_mem_checksAt hstep
  have hs := h.wellFormed
  have hf := List.mem_of_getElem? hk
  have hd := Field.disposition_of_sizeOfTarget? htarget
  have hconst : f.isConst = false := by simp [Field.isConst, hd, Disposition.role]
  have hunion := h.planned.unionOf?_of_not_stored hs hf (by simp [Field.isStored, hd])
  -- what was written for the field that promises the size
  obtain ⟨shape, hshape, hentry⟩ := h.planned.entry_of_own hs hk hconst hunion
  obtain ⟨chunk, hchunk, -⟩ := h.entry k _ hentry
  obtain ⟨b, hb, hchunk⟩ := bind_eq_ok.mp hchunk
  have hholds := (hp.knows h).holds hs hk (Nat.le_succ_of_le hle) hconst hunion hb
  refine bind_eq_ok.mpr ⟨b, hholds, ?_⟩
  cases b with
  | false => rfl
  | true =>
    obtain ⟨leaf, rfl⟩ := hshape.of_reserved hd
    obtain ⟨v, hv, -⟩ := bind_eq_ok.mp hchunk
    obtain ⟨n, hn, -⟩ := map_eq_ok.mp hv
    have hfound := hp.promised k f hk (Nat.lt_succ_of_le hle) target htarget hb n hn
    have hpart : ∀ x, s.ready slots x ≤ i → p.record.get? x = r.get? x :=
      fun x hx => hp.settled x (Nat.lt_succ_of_le hx)
    have hsame := h.sound.fieldSize_eq hsettled h.lookup h.planned
      (h.sound.complete_of_canonical h.proper.canonical) hpart hf htarget hready [] initial
    rw [hn] at hsame
    simp only [if_true, Field.checkStep, readOp, noted_eq_ok.mpr hfound, ← hsame, ok_bind,
      checkReserved]

/-- The names that are ready after a place are those that its entry or one of its unions settles. -/
theorem Written.ready_lt_succ (x : String) :
    s.Entered slots i x ∨ (∃ slot ∈ s.slotsAt slots i, x ∈ slot.members.map (·.field)) ↔
      s.ready slots x < i + 1 := by
  have hs := h.wellFormed
  constructor
  · rintro ((hlt | ⟨hready, -⟩) | ⟨slot, hslot, hmem⟩)
    · exact Nat.lt_succ_of_lt hlt
    · exact Nat.lt_succ_of_le (Nat.le_of_eq hready)
    · exact Nat.lt_succ_of_le (Nat.le_of_eq (h.planned.ready_of_slotsAt hs hslot hmem))
  · intro hlt
    rcases Nat.lt_succ_iff_lt_or_eq.mp hlt with hlt | hready
    · exact Or.inl (Or.inl hlt)
    · cases hunion : s.unionOf? x with
      | none => exact Or.inl (Or.inr ⟨hready, hunion⟩)
      | some g =>
        obtain ⟨hg, hmem⟩ : g ∈ s.unions ∧ x ∈ g.members :=
          ⟨List.mem_of_find?_eq_some hunion, by simpa using List.find?_some hunion⟩
        obtain ⟨f, hf, -, rfl, -⟩ := Struct.field_of_mem_members (Struct.mem_unions.mp hg).1 hmem
        obtain ⟨slot, hslot, -, u, hu, hname, -⟩ := h.planned.slot_of_union hs hf hunion
        have hmember := h.planned.ready_of_member hs hslot hu
        rw [hname, hready] at hmember
        exact Or.inr ⟨slot, Struct.mem_slotsAt.mpr ⟨hslot, hmember.symm⟩,
          List.mem_map.mpr ⟨u, hu, hname⟩⟩

/-- A place is read back. -/
theorem Replays.readPlace (hlengths : c.schema.LengthsUncounted)
    (hsettled : c.schema.PromisesSettled)
    (hp : c.Replays (Frame.mk s plan r initial) slots (c.encodeAt m) (s.ready slots · < i) i p)
    (hi : i < entries.length) (hcur : p.cursor = cur i) :
    ∃ q, ((entries[i].map fun e => e.step (e.decodeOp s)).toList ++ s.deferredAt slots i).foldlM
        (c.readStep c.decoder s plan) p = .ok q ∧ q.cursor = cur (i + 1) ∧
      c.Replays (Frame.mk s plan r initial) slots (c.encodeAt m) (s.ready slots · < i + 1) (i + 1)
        q := by
  have hf := List.getElem?_eq_getElem (h.planned.length ▸ hi)
  obtain ⟨o, mid, ho, hmid, hcursor, hentered⟩ := hp.readEntry h hf hlengths hcur
  rw [List.getElem?_eq_getElem hi, Option.some.injEq] at ho
  -- the members of the unions of the place are still to come
  have hnew : ∀ slot ∈ s.slotsAt slots i, ∀ u ∈ slot.members, ¬ s.Entered slots i u.field := by
    intro slot hslot u hu hbefore
    have hmem : u.field ∈ slot.members.map (·.field) := List.mem_map.mpr ⟨u, hu, rfl⟩
    have hready := h.planned.ready_of_slotsAt h.wellFormed hslot hmem
    rcases hbefore with hlt | ⟨-, hnone⟩
    · omega
    · exact h.planned.not_member h.wellFormed (Struct.mem_slotsAt.mp hslot).1 hnone hmem
  have hat : ∀ slot ∈ s.slotsAt slots i, slot ∈ slots ∧ s.slotReady slot < i + 1 := by
    intro slot hslot
    obtain ⟨hmem, hready⟩ := Struct.mem_slotsAt.mp hslot
    exact ⟨hmem, Nat.lt_succ_of_le (Nat.le_of_eq hready)⟩
  have hnodup : (s.slotsAt slots i).Nodup := h.planned.nodup_slots.sublist List.filter_sublist
  obtain ⟨q, hq, hcursor', hall⟩ := hentered.resolveAll h hat hnodup hnew
  have hdone := hall.congr h.ready_lt_succ
  refine ⟨q, ?_, hcursor'.trans hcursor, hdone⟩
  rw [Struct.deferredAt_eq, List.foldlM_append, ho]
  refine bind_eq_ok.mpr ⟨mid, hmid, ?_⟩
  rw [List.foldlM_append]
  exact bind_eq_ok.mpr ⟨q, hq, foldlM_of_fixed fun step => hdone.check h hsettled⟩

/-- All places are read back, one after the other. -/
theorem Written.readPlaces (hlengths : c.schema.LengthsUncounted)
    (hsettled : c.schema.PromisesSettled) :
    ∃ q, plan.decode.foldlM (c.readStep c.decoder s plan) (Progress.start s r.typeName (cur 0)) =
        .ok q ∧ q.cursor = cur entries.length ∧ c.Replays (Frame.mk s plan r initial) slots
          (c.encodeAt m) (s.ready slots · < entries.length) entries.length q := by
  have hfirst : c.Replays (Frame.mk s plan r initial) slots (c.encodeAt m) (s.ready slots · < 0) 0
      (Progress.start s r.typeName (cur 0)) := by
    refine ⟨fun x hx => absurd hx (Nat.not_lt_zero _), fun x _ => rfl, fun k f _ hk => ?_,
      fun k f _ hk => ?_, fun slot _ hk => ?_⟩ <;> exact absurd hk (Nat.not_lt_zero _)
  rw [h.planned.decode]
  unfold Struct.decodeSteps
  rw [foldlM_flatMap, ← List.length_zipIdx (l := entries)]
  refine foldlM_ok_of_invariant (fun i p => p.cursor = cur i ∧
    c.Replays (Frame.mk s plan r initial) slots (c.encodeAt m) (s.ready slots · < i) i p) ?_
    ⟨rfl, hfirst⟩
  rintro i hi p ⟨hcursor, hp⟩
  rw [List.length_zipIdx] at hi
  obtain ⟨q, hq, hnext⟩ := hp.readPlace h hlengths hsettled hi hcursor
  refine ⟨q, ?_, hnext⟩
  simp only [List.getElem_zipIdx, Nat.zero_add]
  exact hq

/-- A written record is read back from its bytes. -/
theorem Written.decoder_eq (hlengths : c.schema.LengthsUncounted)
    (hsettled : c.schema.PromisesSettled) :
    c.decoder r.typeName (cur 0) = .ok (r, cur entries.length) := by
  obtain ⟨q, hq, hcursor, hp⟩ := h.readPlaces hlengths hsettled
  obtain ⟨hname, hsorted⟩ := sorted_of_steps hq List.Pairwise.nil
  have hget : ∀ x, q.record.get? x = r.get? x := by
    intro x
    by_cases hready : s.ready slots x < entries.length
    · exact hp.settled x hready
    · -- all fields are ready by then
      rw [hp.pending x hready]
      refine (h.get?_of_no_field fun f hf _ => hready ?_).symm
      obtain ⟨i, hi⟩ := List.mem_iff_getElem?.mp hf
      have hpos := Nat.zero_lt_of_lt (List.getElem?_eq_some_iff.mp hi).1
      exact h.planned.targetReady_lt (h.planned.length ▸ hpos) x
  have hrecord : q.record = r := by
    have hfields := hsorted.ext h.here.sorted hget
    cases hr : r with
    | mk typeName fields =>
      cases hq' : q.record with
      | mk typeName' fields' =>
        rw [hr, hq'] at hfields hname
        cases hfields
        cases hname
        rfl
  rw [h.sound.decoder_of_steps h.lookup hq, hrecord, hcursor]

end Places

end Codec

end WireLayout
