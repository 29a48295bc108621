import WireLayout.Proofs.Remembering

/-!
# Reserved sizes

A reserved field that promises the size of another field is written with the size that the whole
record gives, and compared with the size that the part of the record gives which was read by then. So
the two have to come from the same: the target may not be there on account of a number of elements,
which only the whole record tells, a promised member of a union has to be the one that the record
holds, and a number of elements that a condition in the target tests has to be found again in an
array. Then every record that is written is accepted by the reader, canonical or not.
-/

namespace WireLayout

namespace Codec

variable {c : Codec} {n : Nat}

/-! ## Entries -/

section Entries

variable {s : Struct} {plan : Plan} {r : Record} {initial : List Initializer}
  {slots : List UnionSlot} {entries : List (Option WireEntry)} {cur : Nat → Cursor}
  {done : UnionSlot → Prop} {i : Nat} {f : Field} {p q : Progress}
  (h : c.Sent s plan r initial slots entries n cur)
  (hp : c.Follows (c.encodeAt n) (Frame.mk s plan r initial) slots entries done i p)
  (hi : s.fields[i]? = some f)

include h hp hi

/-- The entry of a field of its own is read. -/
theorem Follows.readOwn (hconst : f.isConst = false) (hunion : s.unionOf? f.name = none)
    {shape : WireShape} (hshape : c.schema.Shaped s f shape) {entry : WireEntry}
    (hshaped : entry = { field := f.name, role := f.disposition.role, guard := f.condition, shape })
    (hentry : entries[i]? = some (some entry)) (hcur : p.cursor = cur i) :
    ∃ q, c.readStep c.decoder s plan p (entry.step (entry.decodeOp s)) = .ok q ∧
      q.cursor = cur (i + 1) ∧ q.slots = p.slots ∧
      c.Recalls (c.encodeAt n) (Frame.mk s plan r initial) f entry q := by
  obtain ⟨chunk, hchunk, hlt, hreads⟩ := h.entry i _ hentry
  rw [← hcur] at hreads
  have hguard : entry.guard = f.condition := by rw [hshaped]
  have hfield : entry.field = f.name := by rw [hshaped]
  obtain ⟨b, hb, hchunk⟩ := bind_eq_ok.mp hchunk
  simp only [WireEntry.step, hguard, hfield] at hb hchunk
  have hholds := (hp.knows h).holds h.wellFormed hi (Nat.le_refl i) hconst hunion hb
  simp only [readStep, WireEntry.step, hguard, hfield, hholds, ok_bind]
  cases b with
  | false =>
    cases hchunk
    refine ⟨p, rfl, hreads.eq_of_nil.symm, rfl, fun ht => ?_, fun _ _ htrue => ?_,
      fun _ htrue => ?_⟩
    · rw [ht.plain.2] at hb
      cases hb
    · have hfalse := htrue.symm.trans hb
      cases hfalse
    · have hfalse := htrue.symm.trans hb
      cases hfalse
  | true =>
    simp only [if_true] at hchunk ⊢
    cases hshape with
    | leaf hstored hform => exact h.readLeaf hi hreads hstored hform hshaped hchunk
    | nested hstored hform _ => exact h.readNested hlt hreads hstored hform hshaped hchunk
    | reserved hd _ => exact Sent.readReserved hreads hd hshaped hchunk
    | array hd helement => exact hp.readArray h hi hlt hreads hd helement hshaped hchunk
    | arraySized hd _ =>
      have hnone := (h.counted s h.declared f (List.mem_of_getElem? hi)).2
      simp [Field.sizedArray?, hd] at hnone
    | fill hd _ => exact absurd hd (h.counted s h.declared f (List.mem_of_getElem? hi)).1

/-- What is known once the entry of a place was read, which changes nothing but a field of its own. -/
theorem Follows.enter (hagree : ∀ x, x ≠ f.name ∨ (s.unionOf? x).isSome = true → p.Agree x q)
    (hown : s.unionOf? f.name = none → ∀ entry, entries[i]? = some (some entry) →
      c.Recalls (c.encodeAt n) (Frame.mk s plan r initial) f entry q)
    (hkept : ∀ slot ∈ slots, slot.position < i + 1 → ∀ raw,
      (Frame.mk s plan r initial).opBytes c.schema c.measure (c.encodeAt n) slot.name
        (.union slot.bytes slot.members) = .ok raw → q.slots.lookup slot.name = some raw) :
    c.Follows (c.encodeAt n) (Frame.mk s plan r initial) slots entries done (i + 1) q := by
  have hs := h.wellFormed
  -- the members of unions are left alone
  have hmember : ∀ slot ∈ slots, ∀ m ∈ slot.members, p.Agree m.field q := by
    intro slot hslot m hm
    obtain ⟨g, -, hname, -, -, -, -, u, hu, -⟩ := h.planned.member_of_slot hs hslot hm
    exact hagree _ (Or.inr (by rw [← hname, hu]; rfl))
  constructor
  case recalled =>
    intro k g entry hk hlt hnone hentry
    by_cases hki : k = i
    · subst hki
      rw [hi] at hk
      cases hk
      exact hown hnone entry hentry
    · have hne : g.name ≠ f.name := by
        intro hname
        obtain rfl := List.inj_on_of_nodup_map hs.names (List.mem_of_getElem? hk)
          (List.mem_of_getElem? hi) hname
        have hready := h.planned.ready_of_own hs hk hnone
        exact hki (hready.symm.trans (h.planned.ready_of_own hs hi hnone))
      exact (hp.recalled k g entry hk (by omega) hnone hentry).agree (hagree _ (Or.inl hne))
  case kept => exact hkept
  case resolved =>
    intro slot hslot hdone t ht m hm
    rw [(hmember slot hslot m hm).record]
    exact hp.resolved slot hslot hdone t ht m hm
  case pending =>
    intro slot hslot hnot m hm
    rw [(hmember slot hslot m hm).record]
    exact hp.pending slot hslot hnot m hm

/-- The entry of a place is read, if there is one. -/
theorem Follows.readEntry (hcur : p.cursor = cur i) :
    ∃ o q, entries[i]? = some o ∧ (o.map fun e => e.step (e.decodeOp s)).toList.foldlM
        (c.readStep c.decoder s plan) p = .ok q ∧ q.cursor = cur (i + 1) ∧
      c.Follows (c.encodeAt n) (Frame.mk s plan r initial) slots entries done (i + 1) q := by
  have hs := h.wellFormed
  -- where no slot lies in the place, the bytes of the slots before it are all there is
  have hkept : (∀ slot ∈ slots, slot.position ≠ i) → ∀ slot ∈ slots, slot.position < i + 1 →
      ∀ raw, (Frame.mk s plan r initial).opBytes c.schema c.measure (c.encodeAt n) slot.name
        (.union slot.bytes slot.members) = .ok raw → p.slots.lookup slot.name = some raw := by
    intro hno slot hslot hlt
    have hne := hno slot hslot
    exact hp.kept slot hslot (by omega)
  have hnone : s.unionOf? f.name = none → ∀ slot ∈ slots, slot.position ≠ i := by
    rintro hunion slot hslot rfl
    obtain ⟨g, hg⟩ := h.planned.unionOf?_of_slot hs hslot hi
    rw [hunion] at hg
    cases hg
  obtain ⟨o, ho, hentry⟩ := h.planned.places i f hi
  refine ⟨o, ?_⟩
  cases hentry with
  | const _ hunion =>
    refine ⟨p, ho, rfl, hcur.trans (h.skip i ho).symm, hp.enter h hi (fun x _ => .refl x p)
      (fun _ entry hentry => ?_) (hkept (hnone hunion))⟩
    rw [ho] at hentry
    cases hentry
  | own hconst hunion hshape =>
    obtain ⟨q, hq, hcursor, hslots, hrecalls⟩ := hp.readOwn h hi hconst hunion hshape rfl ho hcur
    refine ⟨q, ho, ?_, hcursor, hp.enter h hi (fun x hx => ?_) (fun _ entry hentry => ?_) ?_⟩
    · rw [Option.map_some, Option.toList_some, List.foldlM_cons]
      exact bind_eq_ok.mpr ⟨q, hq, rfl⟩
    · refine agree_of_readStep hq fun hmem => ?_
      obtain rfl := hshape.eq_of_settles hmem
      rw [hunion] at hx
      simp at hx
    · rw [ho] at hentry
      cases hentry
      exact hrecalls
    · rw [hslots]
      exact hkept (hnone hunion)
  | @slot slot hslot hpos _ =>
    obtain ⟨raw, hraw, -, hreads⟩ := h.entry i _ ho
    rw [← hcur] at hreads
    refine ⟨{ p with slots := (slot.name, raw) :: p.slots, cursor := cur (i + 1) }, ho, ?_, rfl,
      hp.enter h hi (fun x _ => ⟨rfl, rfl⟩) (fun hunion => ?_) ?_⟩
    · rw [Option.map_some, Option.toList_some, List.foldlM_cons]
      exact bind_eq_ok.mpr ⟨_, readStep_of_slot hraw hreads, rfl⟩
    · exact absurd hpos (hnone hunion slot hslot)
    · exact h.planned.kept_cons hs hslot hpos hraw hp.kept
  | member hsome hno =>
    refine ⟨p, ho, rfl, hcur.trans (h.skip i ho).symm, hp.enter h hi (fun x _ => .refl x p)
      (fun hunion => ?_) (hkept hno)⟩
    rw [hunion] at hsome
    cases hsome

end Entries

/-! ## Unions -/

section Unions

variable {s : Struct} {plan : Plan} {r : Record} {initial : List Initializer}
  {slots : List UnionSlot} {entries : List (Option WireEntry)} {cur : Nat → Cursor}
  {done : UnionSlot → Prop} {place : Nat} {p q : Progress}
  (h : c.Sent s plan r initial slots entries n cur)
  (hp : c.Follows (c.encodeAt n) (Frame.mk s plan r initial) slots entries done place p)

include h hp

/-- What is known once a union was resolved, which changes nothing but its members. -/
theorem Follows.settle {slot : UnionSlot} (hslot : slot ∈ slots)
    (hagree : ∀ x, x ∉ slot.members.map (·.field) → p.Agree x q)
    (hmembers : ∀ t, (Frame.mk s plan r initial).intOf c.measure slot.conditionField = .ok t →
      ∀ m ∈ slot.members, (q.record.get? m.field).isSome = true ↔
        (slot.members.find? fun x => x.guard.holds t).map (·.field) = some m.field)
    (hslots : q.slots = p.slots) :
    c.Follows (c.encodeAt n) (Frame.mk s plan r initial) slots entries (fun x => done x ∨ x = slot)
      place q := by
  have hs := h.wellFormed
  -- other unions have other members
  have hother : ∀ slot' ∈ slots, slot' ≠ slot → ∀ m ∈ slot'.members, p.Agree m.field q := by
    intro slot' hslot' hne m hm
    refine hagree _ fun hmem => hne ?_
    obtain ⟨m', hm', hname⟩ := List.mem_map.mp hmem
    exact h.planned.slot_of_member hs hslot' hslot hm hm' hname ▸ rfl
  constructor
  case recalled =>
    intro k g entry hk hlt hnone hentry
    exact (hp.recalled k g entry hk hlt hnone hentry).agree
      (hagree _ (h.planned.not_member hs hslot hnone))
  case kept =>
    rw [hslots]
    exact hp.kept
  case resolved =>
    intro slot' hslot' hdone t ht m hm
    by_cases hsame : slot' = slot
    · subst hsame
      exact hmembers t ht m hm
    · rw [(hother slot' hslot' hsame m hm).record]
      exact hp.resolved slot' hslot' (hdone.resolve_right hsame) t ht m hm
  case pending =>
    intro slot' hslot' hnot m hm
    obtain ⟨hdone, hne⟩ := not_or.mp hnot
    rw [(hother slot' hslot' hne m hm).record]
    exact hp.pending slot' hslot' hdone m hm

/-- A union is resolved: the member that was written is read as some value. -/
theorem Follows.resolve {slot : UnionSlot} (hslot : slot ∈ slots) (hready : s.slotReady slot < place)
    (hnew : ¬ done slot) :
    ∃ q, c.readStep c.decoder s plan p (Struct.resolveStep slot) = .ok q ∧ q.cursor = p.cursor ∧
      c.Follows (c.encodeAt n) (Frame.mk s plan r initial) slots entries
        (fun x => done x ∨ x = slot) place q := by
  have hs := h.wellFormed
  -- the field that the members test was read, and so were the bytes of the union
  obtain ⟨k, g, hk, hname, ht, hle⟩ := h.planned.tested_of_slot hs hslot
  obtain ⟨t, hv, hlookup, -⟩ := hp.noted h hk (Nat.lt_of_le_of_lt hle hready) ht
  rw [hname] at hv hlookup
  obtain ⟨raw, hraw, hlt, -⟩ := h.entry _ _ (h.planned.entry_of_slot hs hslot)
  rw [Frame.stepBytes_slotEntry] at hraw
  have hkept := hp.kept slot hslot
    (Nat.lt_of_le_of_lt (Struct.position_le_slotReady slot) hready) raw hraw
  have hnone := hp.pending slot hslot hnew
  rcases readStep_of_kept hraw (h.planned.guard_of_slot hs hslot) hv hlookup hkept with
    ⟨hfind, hstep⟩ | ⟨u, v, bytes, last, hfind, -, hbytes, hshort, hreads, hstep⟩
  · refine ⟨p, hstep, rfl, hp.settle h hslot (fun x _ => .refl x p) (fun t' ht' m hm => ?_) rfl⟩
    rw [hv] at ht'
    cases ht'
    rw [hnone m hm, hfind]
    simp
  · obtain ⟨v', hread, -⟩ := h.accepts.element hbytes (Nat.lt_of_le_of_lt hshort hlt) hreads
    rw [hread, ok_map] at hstep
    refine ⟨_, hstep, p.cursor_noteValue _ _, hp.settle h hslot
      (fun x hx => agree_of_readStep hstep hx) (fun t' ht' m hm => ?_) (p.slots_noteValue _ _)⟩
    rw [hv] at ht'
    cases ht'
    rw [hfind, Option.map_some, Option.some.injEq]
    by_cases hsame : m.field = u.field
    · rw [hsame]
      simp [Progress.store]
    · have hother := (Progress.Agree.noteValue hsame p v').trans (Progress.Agree.store hsame _ v')
      rw [hother.record, hnone m hm]
      simpa using fun heq : u.field = m.field => hsame heq.symm

end Unions

/-- Unions are resolved one after the other. -/
theorem Follows.resolveAll {s : Struct} {plan : Plan} {r : Record} {initial : List Initializer}
    {slots : List UnionSlot} {entries : List (Option WireEntry)} {cur : Nat → Cursor}
    {done : UnionSlot → Prop} {place : Nat} {p : Progress} {l : List UnionSlot}
    (h : c.Sent s plan r initial slots entries n cur)
    (hp : c.Follows (c.encodeAt n) (Frame.mk s plan r initial) slots entries done place p)
    (hl : ∀ slot ∈ l, slot ∈ slots ∧ s.slotReady slot < place) (hnodup : l.Nodup)
    (hnew : ∀ slot ∈ l, ¬ done slot) :
    ∃ q, (l.map Struct.resolveStep).foldlM (c.readStep c.decoder s plan) p = .ok q ∧
      q.cursor = p.cursor ∧ c.Follows (c.encodeAt n) (Frame.mk s plan r initial) slots entries
        (fun x => done x ∨ x ∈ l) place q := by
  induction l generalizing done p with
  | nil => exact ⟨p, rfl, rfl, by simpa using hp⟩
  | cons slot rest ih =>
    obtain ⟨hslot, hready⟩ := hl slot (by simp)
    obtain ⟨hnotin, hnodup⟩ := List.nodup_cons.mp hnodup
    obtain ⟨q, hq, hcursor, hp'⟩ := hp.resolve h hslot hready (hnew slot (by simp))
    obtain ⟨q', hq', hcursor', hp''⟩ := ih hp' (fun x hx => hl x (List.mem_cons_of_mem _ hx)) hnodup
      fun x hx => not_or.mpr ⟨hnew x (List.mem_cons_of_mem _ hx), fun heq => hnotin (heq ▸ hx)⟩
    refine ⟨q', ?_, hcursor'.trans hcursor, ?_⟩
    · rw [List.map_cons, List.foldlM_cons]
      exact bind_eq_ok.mpr ⟨q, hq, hq'⟩
    · have hsame : (fun x => (done x ∨ x = slot) ∨ x ∈ rest) = fun x => done x ∨ x ∈ slot :: rest := by
        funext x
        rw [or_assoc, List.mem_cons]
      exact hsame ▸ hp''

/-! ## Promises -/

section Members

variable {s : Struct} {plan : Plan} {r : Record} {initial : List Initializer}
  {slots : List UnionSlot} {entries : List (Option WireEntry)} {cur : Nat → Cursor}
  (h : c.Sent s plan r initial slots entries n cur) {f g : Field} (hf : f ∈ s.fields)
  (hg : g ∈ s.fields) (htarget : f.sizeOfTarget? = some g.name)
  (hunion : (s.unionOf? g.name).isSome = true) {slot : UnionSlot} (hslot : slot ∈ slots)
  {m : UnionMember} (hm : m ∈ slot.members) (hcond : g.condition = some m.guard) {t : Int}
  (hlive : m.guard.holds t = true)

include h hf hg htarget hunion hslot hm hcond hlive

/-- A promised member whose condition holds is the first such member of its union: no other one can be
there. -/
theorem Sent.first_of_promised :
    ∃ w, (slot.members.find? fun x => x.guard.holds t) = some w ∧ w.field = g.name := by
  have hs := h.wellFormed
  obtain ⟨w, hw⟩ : ∃ w, slot.members.find? (fun x => x.guard.holds t) = some w :=
    Option.isSome_iff_exists.mp (List.find?_isSome.mpr ⟨m, hm, hlive⟩)
  refine ⟨w, hw, ?_⟩
  have hwmem := List.mem_of_find?_eq_some hw
  have hwlive : w.guard.holds t = true := by simpa using List.find?_some hw
  by_contra hne
  obtain ⟨g', hg', hname', -, hcond', htest, -⟩ := h.planned.member_of_slot hs hslot hwmem
  have hexcl := h.told.exclusive s h.declared f hf g.name htarget g hg rfl hunion g' hg'
    (fun heq => hne (hname'.symm.trans heq)) m.guard hcond w.guard hcond'
    (htest.trans (h.planned.guard_of_slot hs hslot m hm).symm)
  rw [Condition.not_holds_of_excludes hexcl hlive] at hwlive
  cases hwlive

/-- A promised member whose condition holds was written from the record. -/
theorem Sent.isSome_of_promised
    (ht : (Frame.mk s plan r initial).intOf c.measure slot.conditionField = .ok t) :
    (r.get? g.name).isSome = true := by
  have hs := h.wellFormed
  obtain ⟨w, hw, hsame⟩ := h.first_of_promised hf hg htarget hunion hslot hm hcond hlive
  obtain ⟨raw, hraw, -⟩ := h.entry _ _ (h.planned.entry_of_slot hs hslot)
  rw [Frame.stepBytes_slotEntry] at hraw
  obtain ⟨bytes, hbytes, -⟩ := Frame.unionBytes_of_union hraw
  rw [Frame.unionBytes_eq ht (h.planned.guard_of_slot hs hslot), hw] at hbytes
  obtain ⟨x, hx, -⟩ := bind_eq_ok'.mp hbytes
  have hspared : (Frame.mk s plan r initial).initial? g.name = none :=
    h.spares.initial?_eq_none h.declared hf htarget hunion
  unfold Frame.value at hx
  rw [hsame, hspared] at hx
  cases hget : r.get? g.name with
  | some y => rfl
  | none => simp [hget] at hx

end Members

section Promises

variable {s : Struct} {plan : Plan} {r : Record} {initial : List Initializer}
  {slots : List UnionSlot} {entries : List (Option WireEntry)} {cur : Nat → Cursor} {i : Nat}
  {p : Progress} (h : c.Sent s plan r initial slots entries n cur)
  (hp : c.Follows (c.encodeAt n) (Frame.mk s plan r initial) slots entries
    (fun slot => s.slotReady slot < i + 1) (i + 1) p)

include h hp

/-- The part of the record that was read decides the condition of a field that is ready as the writer
did, if the condition does not test a number of elements. -/
theorem Follows.part_holds {g : Field} (hg : g ∈ s.fields) (hconst : g.isConst = false)
    (hready : s.ready slots g.name ≤ i) (hcount : ∀ cond ∈ g.condition, s.isCount cond.field = false)
    {b : Bool} (hb : (Frame.mk s plan r initial).holds c.measure g.condition = .ok b) :
    (Frame.mk s plan p.record []).holds c.measure g.condition = .ok b := by
  have hs := h.wellFormed
  cases hc : g.condition with
  | none => rw [hc] at hb; exact hb
  | some cond =>
    rw [hc] at hb
    obtain ⟨t, ht, hname, htest⟩ := hs.tested g hg cond hc
    obtain ⟨k, hk⟩ := List.mem_iff_getElem?.mp ht
    have hle := h.planned.tested_le_ready hs hg hconst hc hk hname htest
    obtain ⟨v, hv, -, -, hrecord⟩ := hp.noted h hk (by omega) htest
    have hnot : s.isCount t.name = false := hname ▸ hcount cond hc
    have hint : (Frame.mk s plan p.record []).intOf c.measure t.name = asInt t.name (.int v) :=
      Frame.intOf_of_get? hs ht htest hnot (hrecord hnot) c.measure
    rw [hname] at hv hint
    obtain ⟨v', hv', hb⟩ := map_eq_ok.mp hb
    rw [hv] at hv'
    cases hv'
    exact map_eq_ok.mpr ⟨v, hint, hb⟩

/-- A promised member of a union is in the part of the record that was read if and only if it is in the
record and its condition holds. -/
theorem Follows.unionMemberSize {f : Field} (hf : f ∈ s.fields) {target : String}
    (htarget : f.sizeOfTarget? = some target) (hready : s.ready slots target ≤ i)
    (hunion : (s.unionOf? target).isSome = true) :
    (Frame.mk s plan p.record []).unionMemberSize c.schema c.measure target =
      (Frame.mk s plan r initial).unionMemberSize c.schema c.measure target := by
  have hs := h.wellFormed
  unfold Frame.unionMemberSize
  cases hfield : s.field? target with
  | none => rfl
  | some g =>
    obtain ⟨hg, rfl⟩ := Struct.mem_of_field? hfield
    obtain ⟨u, hu⟩ := Option.isSome_iff_exists.mp hunion
    obtain ⟨slot, hslot, -, m, hm, hmname, hcond⟩ := h.planned.slot_of_union hs hg hu
    have hslotReady : s.slotReady slot ≤ i := by
      rw [← h.planned.ready_of_member hs hslot hm, hmname]
      exact hready
    -- the integer that the members test
    obtain ⟨k, t, hk, htname, htest, hle⟩ := h.planned.tested_of_slot hs hslot
    obtain ⟨v, hv, -⟩ := hp.noted h hk (by omega) htest
    rw [htname] at hv
    have hholds : (Frame.mk s plan r initial).holds c.measure g.condition = .ok (m.guard.holds v) := by
      rw [hcond]
      exact map_eq_ok.mpr ⟨v, h.planned.guard_of_slot hs hslot m hm ▸ hv, rfl⟩
    have hconst := ((Struct.unionOf?_eq_some_iff hs.names hg).mp hu).1
    have hpart := hp.part_holds h hg hconst hready
      (h.told.settled s h.declared f hf g.name htarget g hg rfl).1 hholds
    simp only [hholds, hpart, ok_bind]
    cases hlive : m.guard.holds v with
    | false => simp
    | true =>
      obtain ⟨w, hw, hsame⟩ := h.first_of_promised hf hg htarget hunion hslot hm hcond hlive
      have hread : (p.record.get? g.name).isSome = true := by
        rw [← hmname, hp.resolved slot hslot (by omega) v hv m hm, hw, hmname, ← hsame]
        rfl
      have hwritten := h.isSome_of_promised hf hg htarget hunion hslot hm hcond hlive hv
      simp only [hread, hwritten, if_true]
      rfl

/-- A promised size is the same in the record and in the part of it that was read. -/
theorem Follows.fieldSize {f : Field} (hf : f ∈ s.fields) {target : String}
    (htarget : f.sizeOfTarget? = some target) (hready : s.ready slots target ≤ i) {k : Nat}
    (hk : (Frame.mk s plan r initial).fieldSize c.schema c.measure target = .ok k) :
    (Frame.mk s plan p.record []).fieldSize c.schema c.measure target = .ok k := by
  have hs := h.wellFormed
  unfold Frame.fieldSize at hk ⊢
  cases hunion : (s.unionOf? target).isSome with
  | true =>
    simp only [hunion, if_true] at hk ⊢
    rw [hp.unionMemberSize h hf htarget hready hunion]
    exact hk
  | false =>
    simp only [hunion, Bool.false_eq_true, if_false] at hk ⊢
    cases hfind : plan.size.find? fun step => step.field == target with
    | none => rw [hfind] at hk; exact hk
    | some step =>
      rw [hfind] at hk
      have hmem := List.mem_of_find?_eq_some hfind
      have hname : step.field = target := by simpa using List.find?_some hfind
      rw [h.planned.size] at hmem
      obtain ⟨e, he, rfl⟩ := List.mem_map.mp hmem
      obtain ⟨j, g, hg, hj, hentry⟩ := h.planned.place_of_mem he
      have hgmem := List.mem_of_getElem? hg
      cases hentry with
      | slot hslot hpos hslotName =>
        -- the first member of a union is in the union
        obtain ⟨u, hu⟩ := h.planned.unionOf?_of_slot hs hslot (hpos ▸ hg)
        have htargetName : g.name = target := hslotName.symm.trans hname
        rw [← htargetName, hu] at hunion
        cases hunion
      | own hconst hnone hshape =>
        obtain rfl : g.name = target := hname
        have hown := h.planned.ready_of_own hs hg hnone
        obtain ⟨chunk, hchunk, hlt, -⟩ := h.entry j _ hj
        obtain ⟨b, hb, hchunk⟩ := bind_eq_ok.mp hchunk
        simp only [WireEntry.step] at hb hchunk hk ⊢
        have hpart := hp.part_holds h hgmem hconst hready
          (h.told.settled s h.declared f hf g.name htarget g hgmem rfl).1 hb
        simp only [hb, ok_bind] at hk
        simp only [hpart, ok_bind]
        cases b with
        | false => exact hk
        | true =>
          simp only [if_true] at hk hchunk ⊢
          have hsize : k = chunk.length :=
            h.sound.eq_of_opSize h.counted h.declared hgmem hshape hchunk hlt hk
          rw [hsize]
          have hanchored := h.anchored s h.declared f hf g.name htarget g hgmem rfl hnone
          exact (hp.recalled j g _ hg (by omega) hnone hj).sized hanchored hb chunk hchunk p.record
            rfl

/-- A promised size is the one that was written. -/
theorem Follows.check {step : Step DecodeOp} (hstep : step ∈ s.checksAt slots i) :
    c.readStep c.decoder s plan p step = .ok p := by
  obtain ⟨k, f, target, hk, htarget, hle, hready, rfl⟩ := Struct.exists_of_mem_checksAt hstep
  have hs := h.wellFormed
  have hf := List.mem_of_getElem? hk
  have hd := Field.disposition_of_sizeOfTarget? htarget
  have hconst : f.isConst = false := by simp [Field.isConst, hd, Disposition.role]
  have hunion := h.planned.unionOf?_of_not_stored hs hf (by simp [Field.isStored, hd])
  -- what was written for the field that promises the size
  obtain ⟨shape, hshape, hentry⟩ := h.planned.entry_of_own hs hk hconst hunion
  obtain ⟨chunk, hchunk, -⟩ := h.entry k _ hentry
  obtain ⟨b, hb, hchunk⟩ := bind_eq_ok.mp hchunk
  have hholds := (hp.knows h).holds hs hk (Nat.le_succ_of_le hle) hconst hunion hb
  refine bind_eq_ok.mpr ⟨b, hholds, ?_⟩
  cases b with
  | false => rfl
  | true =>
    obtain ⟨leaf, rfl⟩ := hshape.of_reserved hd
    obtain ⟨v, hv, -⟩ := bind_eq_ok.mp hchunk
    obtain ⟨m, hm, -⟩ := map_eq_ok.mp hv
    have hfound := (hp.recalled k f _ hk (Nat.lt_succ_of_le hle) hunion hentry).promised target htarget
      hb m hm
    have hsize := hp.fieldSize h hf htarget hready hm
    simp only [if_true, Field.checkStep, readOp, noted_eq_ok.mpr hfound, hsize, ok_bind, checkReserved]

end Promises

/-! ## Places -/

section Places

variable {s : Struct} {plan : Plan} {r : Record} {initial : List Initializer}
  {slots : List UnionSlot} {entries : List (Option WireEntry)} {cur : Nat → Cursor} {i : Nat}
  {p : Progress} (h : c.Sent s plan r initial slots entries n cur)

include h

/-- A place is read. -/
theorem Follows.readPlace (hp : c.Follows (c.encodeAt n) (Frame.mk s plan r initial) slots entries
      (fun slot => s.slotReady slot < i) i p) (hi : i < entries.length) (hcur : p.cursor = cur i) :
    ∃ q, ((entries[i].map fun e => e.step (e.decodeOp s)).toList ++ s.deferredAt slots i).foldlM
        (c.readStep c.decoder s plan) p = .ok q ∧ q.cursor = cur (i + 1) ∧
      c.Follows (c.encodeAt n) (Frame.mk s plan r initial) slots entries
        (fun slot => s.slotReady slot < i + 1) (i + 1) q := by
  have hf := List.getElem?_eq_getElem (h.planned.length ▸ hi)
  obtain ⟨o, mid, ho, hmid, hcursor, hentered⟩ := hp.readEntry h hf hcur
  rw [List.getElem?_eq_getElem hi, Option.some.injEq] at ho
  have hat : ∀ slot ∈ s.slotsAt slots i, slot ∈ slots ∧ s.slotReady slot = i :=
    fun slot hslot => Struct.mem_slotsAt.mp hslot
  have hnodup : (s.slotsAt slots i).Nodup := h.planned.nodup_slots.sublist List.filter_sublist
  obtain ⟨q, hq, hcursor', hall⟩ := hentered.resolveAll h
    (fun slot hslot => ⟨(hat slot hslot).1, by have := (hat slot hslot).2; omega⟩) hnodup
    (fun slot hslot => by have := (hat slot hslot).2; omega)
  have hdone : c.Follows (c.encodeAt n) (Frame.mk s plan r initial) slots entries
      (fun slot => s.slotReady slot < i + 1) (i + 1) q := by
    refine hall.congr fun slot hslot => ?_
    rw [Struct.mem_slotsAt, Nat.lt_succ_iff_lt_or_eq]
    exact or_congr_right (and_iff_right hslot)
  refine ⟨q, ?_, hcursor'.trans hcursor, hdone⟩
  rw [Struct.deferredAt_eq, List.foldlM_append, ho]
  refine bind_eq_ok.mpr ⟨mid, hmid, ?_⟩
  rw [List.foldlM_append]
  exact bind_eq_ok.mpr ⟨q, hq, foldlM_of_fixed fun step => hdone.check h⟩

/-- All places are read, one after the other. -/
theorem Sent.readPlaces (name : String) :
    ∃ q, plan.decode.foldlM (c.readStep c.decoder s plan) (Progress.start s name (cur 0)) = .ok q ∧
      q.cursor = cur entries.length ∧ c.Follows (c.encodeAt n) (Frame.mk s plan r initial) slots
        entries (fun slot => s.slotReady slot < entries.length) entries.length q := by
  have hfirst : c.Follows (c.encodeAt n) (Frame.mk s plan r initial) slots entries
      (fun slot => s.slotReady slot < 0) 0 (Progress.start s name (cur 0)) :=
    ⟨fun k f entry _ hk => absurd hk (Nat.not_lt_zero _),
      fun slot _ hk => absurd hk (Nat.not_lt_zero _),
      fun slot _ hk => absurd hk (Nat.not_lt_zero _), fun _ _ _ _ _ => rfl⟩
  rw [h.planned.decode]
  unfold Struct.decodeSteps
  rw [foldlM_flatMap, ← List.length_zipIdx (l := entries)]
  refine foldlM_ok_of_invariant (fun i p => p.cursor = cur i ∧ c.Follows (c.encodeAt n)
    (Frame.mk s plan r initial) slots entries (fun slot => s.slotReady slot < i) i p) ?_
    ⟨rfl, hfirst⟩
  rintro i hi p ⟨hcursor, hp⟩
  rw [List.length_zipIdx] at hi
  obtain ⟨q, hq, hnext⟩ := hp.readPlace h hi hcursor
  refine ⟨q, ?_, hnext⟩
  simp only [List.getElem_zipIdx, Nat.zero_add]
  exact hq

end Places

/-! ## Records -/

/-- What is written is read as some record, and that has the size where sizes can be found again. -/
theorem Sound.accepts_encodeAt (hc : c.Sound) (hcounted : c.schema.AllCounted)
    (hanchored : c.PromisesAnchored) (htold : c.PromisesTold) (n : Nat) :
    c.Accepts (c.encodeAt n) := by
  -- on the depth that is left: what a step writes for a nested struct is accepted with one less
  induction n with
  | zero =>
    intro name initial r bytes _ hb
    cases hb
  | succ n ih =>
    intro name initial r bytes hspares hb hlt cursor last hreads
    simp only [encodeAt, bind_eq_ok] at hb
    obtain ⟨frame, hframe, hb⟩ := hb
    obtain ⟨s, plan, hl, -, rfl⟩ := frame_eq_ok.mp hframe
    obtain ⟨-, hs, -, hplan, -, slots, entries, hp⟩ := hc.planned_of_lookup hl
    dsimp only at hb
    rw [hp.encode, joinM_map] at hb
    obtain ⟨cur, hcur, hend, hskip, hentry⟩ := cursors_of_joinM hb hreads
    have hsent : c.Sent s plan r (initial ++ plan.initializers) slots entries n cur :=
      { sound := hc
        counted := hcounted
        told := htold
        anchored := hanchored
        declared := hs
        planned := hp
        spares := hspares.append (htold.spared plan hplan)
        accepts := ih
        skip := hskip
        entry := fun i e he => by
          obtain ⟨chunk, hchunk, hread⟩ := hentry i e he
          obtain ⟨part, hpart, hle⟩ := length_le_of_joinM hb
            (List.mem_filterMap.mpr ⟨_, List.mem_of_getElem? he, rfl⟩)
          rw [hchunk] at hpart
          cases hpart
          exact ⟨chunk, hchunk, by omega, hread⟩ }
    obtain ⟨q, hq, hlast, -⟩ := hsent.readPlaces name
    have hread := hc.decoder_of_steps hl hq
    rw [hlast, hend, hcur] at hread
    refine ⟨q.record, hread, fun hhere initial' => ?_⟩
    obtain ⟨used, hused, hsize⟩ := hc.sizes _ _ _ _ _ hhere hread
    obtain rfl : used = bytes := List.append_cancel_right (hused.rest.symm.trans hreads.rest)
    exact hsize _ initial' (Nat.le_add_right _ _) hlt

end Codec

/-- **Reserved sizes are accepted.** What is written is read, and every size that was promised is found
again, if all vectors are counted and the presence of what is promised, and of what is in it, can be
told from the bytes up to it. -/
theorem decode_ok_of_encode {options : Options} {decls : List Declaration} {c : Codec}
    (hcompile : compile options decls = .ok c) (hcounted : c.schema.AllCounted)
    (hanchored : c.PromisesAnchored) (htold : c.PromisesTold) {r : Record} {bytes : Bytes}
    (hb : c.encode r = .ok bytes) (hlt : bytes.length < sizeLimit) :
    ∃ r', c.decode r.typeName bytes = .ok r' := by
  have hc := sound_of_compile hcompile
  have hreads : (Cursor.start bytes).Reads bytes { offset := bytes.length, rest := [] } :=
    ⟨(List.append_nil bytes).symm, (Nat.zero_add _).symm⟩
  obtain ⟨r', hread, -⟩ := hc.accepts_encodeAt hcounted hanchored htold _ _ _ _ _
    c.sparesPromises_nil hb hlt _ _ hreads
  exact ⟨r', by simp only [Codec.decode, Codec.decodePrefix, hread, ok_map, ok_bind, if_true]⟩

/-- An invoice: it promises the sizes of an optional note, of a fee that shares its slot with a memo,
and of its lines. -/
def invoiceDeclarations : List Declaration :=
  [ .struct { name := "Line", comment := none, disposition := none
              fields :=
                [ { name := some "item", typeName := some "uint16" },
                  { name := some "amount", typeName := some "uint8" } ] },
    .struct { name := "Invoice", comment := none, disposition := none
              fields :=
                [ { name := some "flags", typeName := some "uint8" },
                  { name := some "noteSize", typeName := some "uint8"
                    disposition := some "reserved", value := some (.text "sizeof note") },
                  { name := some "note", typeName := some "uint32", condition := some "flags"
                    conditionOperation := some "equals", conditionValue := some (.unsigned 1) },
                  { name := some "feeSize", typeName := some "uint8"
                    disposition := some "reserved", value := some (.text "sizeof fee") },
                  { name := some "fee", typeName := some "uint16", condition := some "mode"
                    conditionOperation := some "equals", conditionValue := some (.unsigned 0) },
                  { name := some "memo", typeName := some "uint8", condition := some "mode"
                    conditionOperation := some "equals", conditionValue := some (.unsigned 1) },
                  { name := some "mode", typeName := some "uint8" },
                  { name := some "linesSize", typeName := some "uint16"
                    disposition := some "reserved", value := some (.text "sizeof lines") },
                  { name := some "count", typeName := some "uint8" },
                  { name := some "lines", typeName := some "Line", disposition := some "array"
                    size := some (.text "count") } ] } ]

/-- An invoice with a note and a fee; the memo that it also holds is not written. -/
def invoiceRecord : Record :=
  { typeName := "Invoice"
    fields :=
      [ ("fee", .int 7), ("flags", .int 1),
        ("lines", .list [.record "Line" [("amount", .int 3), ("item", .int 9)]]), ("memo", .int 8),
        ("mode", .int 0), ("note", .int 5) ] }

/-- The invoice is read, and its promises are kept. -/
theorem decode_ok_of_encode_invoice :
    compile {} invoiceDeclarations = .ok (codecOf invoiceDeclarations) ∧
    (codecOf invoiceDeclarations).schema.AllCounted ∧
    (codecOf invoiceDeclarations).PromisesAnchored ∧
    (codecOf invoiceDeclarations).PromisesTold ∧
    (codecOf invoiceDeclarations).encode invoiceRecord =
      .ok [1, 4, 5, 0, 0, 0, 2, 7, 0, 0, 3, 0, 1, 9, 0, 3] ∧
    ∃ r, (codecOf invoiceDeclarations).decode invoiceRecord.typeName
      [1, 4, 5, 0, 0, 0, 2, 7, 0, 0, 3, 0, 1, 9, 0, 3] = .ok r := by
  have hcompile : compile {} invoiceDeclarations = .ok (codecOf invoiceDeclarations) :=
    compile_codecOf (by decide +kernel)
  have hcounted : (codecOf invoiceDeclarations).schema.AllCounted := by decide +kernel
  have hcounts : (codecOf invoiceDeclarations).schema.CountsAnchored := by decide +kernel
  have hanchored : (codecOf invoiceDeclarations).PromisesAnchored :=
    fun _ _ _ _ _ _ g _ _ _ => Codec.anchoredFrom_of_countsAnchored hcounts g.typeName
  have htold : (codecOf invoiceDeclarations).PromisesTold :=
    ⟨by decide +kernel, by decide +kernel, by decide +kernel⟩
  have hb : (codecOf invoiceDeclarations).encode invoiceRecord =
      .ok [1, 4, 5, 0, 0, 0, 2, 7, 0, 0, 3, 0, 1, 9, 0, 3] := eq_ok_of_toOption (by decide +kernel)
  exact ⟨hcompile, hcounted, hanchored, htold, hb,
    decode_ok_of_encode hcompile hcounted hanchored htold hb (by decide)⟩

/-- A receipt: its fee, whose size is promised, is there if there are ids, which come later. -/
def receiptDeclarations : List Declaration :=
  [ .struct { name := "Receipt", comment := none, disposition := none
              fields :=
                [ { name := some "count", typeName := some "uint8" },
                  { name := some "feeSize", typeName := some "uint8"
                    disposition := some "reserved", value := some (.text "sizeof fee") },
                  { name := some "fee", typeName := some "uint8", condition := some "count"
                    conditionOperation := some "not_equals"
                    conditionValue := some (.unsigned 0) },
                  { name := some "ids", typeName := some "uint8", disposition := some "array"
                    size := some (.text "count") } ] } ]

/-- A receipt with a fee and an id. -/
def receiptRecord : Record :=
  { typeName := "Receipt", fields := [("fee", .int 5), ("ids", .list [.int 1])] }

/-- A reader that has not come to the ids yet expects no fee, and rejects what was written. -/
theorem receipt_rejected :
    compile {} receiptDeclarations = .ok (codecOf receiptDeclarations) ∧
    (codecOf receiptDeclarations).schema.AllCounted ∧
    (codecOf receiptDeclarations).encode receiptRecord = .ok [1, 1, 5, 1] ∧
    (codecOf receiptDeclarations).decode receiptRecord.typeName [1, 1, 5, 1] =
      .error (.reservedMismatch "feeSize" 0 1) := by
  refine ⟨compile_codecOf (by decide +kernel), by decide +kernel,
    eq_ok_of_toOption (by decide +kernel), ?_⟩
  refine eq_error_of_map (f := fun _ => ()) ?_
  decide +kernel

end WireLayout
