import Mathlib.Data.List.DropRight
import WireLayout.Proofs.DeclarationOrder
import WireLayout.Proofs.FixedValues
import WireLayout.Proofs.OrderedMaps

/-!
# The structs that discriminators stand for

A struct is registered under its own identity or under that of its version family. The dispatch of a
schema is the table of these: it exists when no two structs take the same group, version and
discriminator, it answers every question by the struct that takes them, and it lists each registered
struct once.
-/

namespace WireLayout

/-! ## What a struct takes -/

namespace Schema

/-- Whether a name is that of a family's base with digits at its end, all of which are left off. -/
def InFamily (base name : String) : Prop :=
  ∃ digits : List Char, digits ≠ [] ∧ (∀ c ∈ digits, c.isDigit = true) ∧
    name.toList = base.toList ++ digits ∧ ∀ c, base.toList.getLast? = some c → c.isDigit = false

/-- The identities that structs stand for, where families may share one or not. -/
inductive Identified (schema : Schema) (fallback : Bool) (s : Struct) (i : Identity) : Prop where
  /-- It is the struct's own. -/
  | own : s.kind = .normal → s.identity = some i → Identified schema fallback s i
  /-- It is that of the family's base. -/
  | family {base : Struct} : s.kind = .normal → s.identity = none → s.version.isSome = true →
      fallback = true → base ∈ schema.structs → InFamily base.name s.name →
      base.identity = some i → Identified schema fallback s i

/-- Whether a struct takes a group, a version and a discriminator; it has version 0 if it declares
none. -/
def Takes (schema : Schema) (fallback : Bool) (s : Struct) (key : String × Nat × Int) : Prop :=
  ∃ i, schema.Identified fallback s i ∧ key = (i.group, s.version.getD 0, i.value)

/-- The first struct that takes what an earlier one has taken. -/
def FirstClash (schema : Schema) (fallback : Bool) (e : DispatchError) : Prop :=
  ∃ before duplicate after, schema.structs = before ++ duplicate :: after ∧
    duplicate.name = e.duplicate ∧ schema.Takes fallback duplicate (e.group, e.version, e.id) ∧
    (∃ holder ∈ before, holder.name = e.holder ∧
      schema.Takes fallback holder (e.group, e.version, e.id)) ∧
    before.Pairwise fun s s' => ∀ key, schema.Takes fallback s key → ¬ schema.Takes fallback s' key

end Schema

/-- The group, version and discriminator of an entry. -/
def DispatchEntry.key (e : DispatchEntry) : String × Nat × Int := (e.group, e.version, e.id)

/-- Whether an entry comes before another: by its group, then its version, then its discriminator. -/
def DispatchEntry.Before (a b : DispatchEntry) : Prop :=
  a.group < b.group ∨ a.group = b.group ∧
    (a.version < b.version ∨ a.version = b.version ∧ a.id < b.id)

/-- Whether a dispatch is the table of what the structs of a schema take. -/
structure Dispatch.Tabulates (dispatch : Dispatch) (schema : Schema) (fallback : Bool) : Prop where
  /-- A discriminator stands for the struct that takes it. -/
  resolve : ∀ group version id name, dispatch.resolve? group version id = some name ↔
    ∃ s ∈ schema.structs, s.name = name ∧ schema.Takes fallback s (group, version, id)
  /-- The entries are the structs that take something, with what they take. -/
  listed : ∀ key name, (∃ e ∈ dispatch.entries, e.key = key ∧ e.structName = name) ↔
    ∃ s ∈ schema.structs, s.name = name ∧ schema.Takes fallback s key
  /-- No struct is listed twice. -/
  once : (dispatch.entries.map (·.structName)).Nodup
  /-- The entries are in order. -/
  ascending : dispatch.entries.Pairwise DispatchEntry.Before
  /-- An entry names its discriminator by a member of the group's enum that has this value. -/
  members : ∀ e ∈ dispatch.entries, ∃ member, e.member = some member ∧
    schema.types.HasMember e.group member e.id
  /-- The registered structs have the identities that they stand for, and no others have one. -/
  identities : ∀ name i, dispatch.identity? name = some i ↔
    ∃ s ∈ schema.structs, s.name = name ∧ schema.Identified fallback s i

namespace Schema

variable {schema : Schema} {options : Options} {s : Struct} {i : Identity}

/-- The base of a family is found by leaving off the digits. -/
theorem inFamily_iff {base name : String} :
    InFamily base name ↔ familyBase name = base ∧ familyBase name ≠ name := by
  have hbase : (familyBase name).toList = name.toList.rdropWhile Char.isDigit := by
    unfold familyBase List.rdropWhile
    exact String.toList_ofList
  constructor
  · rintro ⟨digits, hne, hdigits, hname, hlast⟩
    -- the digits are dropped, and the base does not end in one
    have hdrop : name.toList.rdropWhile Char.isDigit = base.toList := by
      rw [hname, List.rdropWhile, List.reverse_append,
        List.dropWhile_append_of_pos (by simpa using hdigits)]
      exact List.rdropWhile_eq_self_iff.mpr fun h => by
        simp [hlast _ (List.getLast?_eq_some_getLast h)]
    have heq : familyBase name = base := String.toList_inj.mp (hbase.trans hdrop)
    refine ⟨heq, fun hsame => hne ?_⟩
    rw [← heq, hsame] at hname
    simpa using hname
  · rintro ⟨rfl, hne⟩
    refine ⟨name.toList.rtakeWhile Char.isDigit, fun hnil => hne ?_,
      fun c hc => List.mem_rtakeWhile_imp hc, ?_, ?_⟩
    · have hsplit := List.rdropWhile_append_rtakeWhile (p := Char.isDigit) (l := name.toList)
      rw [hnil, List.append_nil, ← hbase] at hsplit
      exact String.toList_inj.mp hsplit
    · rw [hbase, List.rdropWhile_append_rtakeWhile]
    · intro c hc
      rw [hbase] at hc
      have hnonempty : name.toList.rdropWhile Char.isDigit ≠ [] := by
        intro hnil
        rw [hnil] at hc
        cases hc
      have hlast := List.rdropWhile_last_not Char.isDigit name.toList hnonempty
      rw [List.getLast?_eq_some_getLast hnonempty] at hc
      cases hc
      simpa using hlast

theorem struct?_eq_some (hnames : (schema.structs.map Struct.name).Nodup) {name : String} :
    schema.struct? name = some s ↔ s ∈ schema.structs ∧ s.name = name :=
  find?_eq_some_of_nodup hnames

theorem familyIdentity?_eq_some (hnames : (schema.structs.map Struct.name).Nodup) {name : String} :
    schema.familyIdentity? name = some i ↔
      ∃ base ∈ schema.structs, InFamily base.name name ∧ base.identity = some i := by
  unfold familyIdentity?
  split
  · rename_i hsame
    simp only [reduceCtorEq, false_iff, not_exists, not_and]
    exact fun base _ hfamily _ => (inFamily_iff.mp hfamily).2 hsame
  · rename_i hne
    simp only [Option.bind_eq_some_iff, struct?_eq_some hnames, inFamily_iff]
    constructor
    · rintro ⟨base, ⟨hbase, hname⟩, hi⟩
      exact ⟨base, hbase, ⟨hname.symm, hne⟩, hi⟩
    · rintro ⟨base, hbase, ⟨hname, -⟩, hi⟩
      exact ⟨base, ⟨hbase, hname.symm⟩, hi⟩

/-- The identity that a struct is registered under is the one that it stands for. -/
theorem effectiveIdentity?_eq_some (hnames : (schema.structs.map Struct.name).Nodup) :
    schema.effectiveIdentity? options s = some i ↔
      schema.Identified options.versionFamilyFallback s i := by
  unfold effectiveIdentity?
  constructor
  · intro h
    split at h
    · cases h
    · rename_i hkind
      split at h
      · rename_i own hown
        cases h
        exact .own hkind hown
      · rename_i hnone
        split at h
        · rename_i hfallback
          obtain ⟨base, hbase, hfamily, hi⟩ := (familyIdentity?_eq_some hnames).mp h
          rw [Bool.and_eq_true] at hfallback
          exact .family hkind hnone hfallback.1 hfallback.2 hbase hfamily hi
        · cases h
  · rintro (⟨hkind, hown⟩ | ⟨hkind, hnone, hversion, hfallback, hbase, hfamily, hi⟩)
    · simp only [hkind, hown]
    · simp only [hkind, hnone, hversion, hfallback, Bool.and_self, if_true]
      exact (familyIdentity?_eq_some hnames).mpr ⟨_, hbase, hfamily, hi⟩

theorem takes_iff (hnames : (schema.structs.map Struct.name).Nodup) {key : String × Nat × Int} :
    schema.Takes options.versionFamilyFallback s key ↔
      ∃ r, schema.registration? options s = some r ∧ r.key = key := by
  unfold Takes registration?
  simp only [← effectiveIdentity?_eq_some hnames, Option.map_eq_some_iff]
  constructor
  · rintro ⟨i, hi, rfl⟩
    exact ⟨_, ⟨i, hi, rfl⟩, rfl⟩
  · rintro ⟨_, ⟨i, hi, rfl⟩, rfl⟩
    exact ⟨i, hi, rfl⟩

theorem structName_of_registration? {r : Registration}
    (h : schema.registration? options s = some r) : r.structName = s.name := by
  obtain ⟨i, -, rfl⟩ := Option.map_eq_some_iff.mp h
  rfl

/-- The structs that take something are registered. -/
theorem exists_registration_iff (hnames : (schema.structs.map Struct.name).Nodup)
    {key : String × Nat × Int} {name : String} :
    (∃ r ∈ schema.structs.filterMap (schema.registration? options),
      r.key = key ∧ r.structName = name) ↔
      ∃ s ∈ schema.structs, s.name = name ∧ schema.Takes options.versionFamilyFallback s key := by
  simp only [List.mem_filterMap, takes_iff hnames]
  constructor
  · rintro ⟨r, ⟨s, hs, hr⟩, hkey, rfl⟩
    exact ⟨s, hs, (structName_of_registration? hr).symm, r, hr, hkey⟩
  · rintro ⟨s, hs, rfl, r, hr, hkey⟩
    exact ⟨r, ⟨s, hs, hr⟩, hkey, structName_of_registration? hr⟩

theorem nodup_registered (hnames : (schema.structs.map Struct.name).Nodup) :
    ((schema.structs.filterMap (schema.registration? options)).map (·.structName)).Nodup := by
  rw [List.Nodup, List.pairwise_map, List.pairwise_filterMap]
  refine (List.pairwise_map.mp hnames).imp ?_
  intro s s' hne r hr r' hr'
  rwa [structName_of_registration? hr, structName_of_registration? hr']

/-- No two structs of a list take the same if no two of their registrations do. -/
theorem nodup_keys_iff (hnames : (schema.structs.map Struct.name).Nodup) {structs : List Struct} :
    ((structs.filterMap (schema.registration? options)).map Registration.key).Nodup ↔
      structs.Pairwise fun s s' => ∀ key, schema.Takes options.versionFamilyFallback s key →
        ¬ schema.Takes options.versionFamilyFallback s' key := by
  rw [List.Nodup, List.pairwise_map, List.pairwise_filterMap]
  simp only [takes_iff hnames]
  constructor
  · refine fun h => h.imp ?_
    rintro s s' hne key ⟨r, hr, hkey⟩ ⟨r', hr', hkey'⟩
    exact hne r hr r' hr' (hkey.trans hkey'.symm)
  · refine fun h => h.imp ?_
    intro s s' hne r hr r' hr' hkey
    exact hne r.key ⟨r, hr, rfl⟩ ⟨r', hr', hkey.symm⟩

/-- The struct that is refused is the first one that takes what an earlier one has taken. -/
theorem dispatch_eq_error_iff (hnames : (schema.structs.map Struct.name).Nodup)
    {e : DispatchError} :
    schema.dispatch options = .error e ↔ schema.FirstClash options.versionFamilyFallback e := by
  rw [dispatch_eq_error]
  constructor
  · rintro ⟨before, s, after, hstructs, hnodup, r, hr, hadd⟩
    obtain ⟨t, ht, hkey, rfl⟩ := (Registration.addTo_eq_error hnodup).mp hadd
    obtain ⟨holder, hholder, hreg⟩ := List.mem_filterMap.mp ht
    refine ⟨before, s, after, hstructs, (structName_of_registration? hr).symm,
      (takes_iff hnames).mpr ⟨r, hr, rfl⟩, ⟨holder, hholder, ?_, ?_⟩, (nodup_keys_iff hnames).mp hnodup⟩
    · exact (structName_of_registration? hreg).symm
    · exact (takes_iff hnames).mpr ⟨t, hreg, hkey⟩
  · rintro ⟨before, s, after, hstructs, hname, htakes, ⟨holder, hholder, hname', htakes'⟩, hapart⟩
    have hnodup := (nodup_keys_iff hnames).mpr hapart
    obtain ⟨r, hr, hkey⟩ := (takes_iff hnames).mp htakes
    obtain ⟨t, ht, hkey'⟩ := (takes_iff hnames).mp htakes'
    refine ⟨before, s, after, hstructs, hnodup, r, hr, (Registration.addTo_eq_error hnodup).mpr
      ⟨t, List.mem_filterMap.mpr ⟨holder, hholder, ht⟩, hkey'.trans hkey.symm, ?_⟩⟩
    obtain ⟨hgroup, hversion, hid⟩ : r.identity.group = e.group ∧ r.version = e.version ∧
        r.identity.value = e.id := by simpa [Registration.key] using hkey
    rw [structName_of_registration? hr, structName_of_registration? ht, hname, hname', hgroup,
      hversion, hid]

theorem dispatch_fails_iff (hnames : (schema.structs.map Struct.name).Nodup) :
    (∃ e, schema.dispatch options = .error e) ↔
      ∃ s ∈ schema.structs, ∃ s' ∈ schema.structs, s ≠ s' ∧ ∃ key,
        schema.Takes options.versionFamilyFallback s key ∧
        schema.Takes options.versionFamilyFallback s' key := by
  constructor
  · rintro ⟨e, he⟩
    obtain ⟨before, s, after, hstructs, -, htakes, ⟨holder, hholder, -, htakes'⟩, -⟩ :=
      (dispatch_eq_error_iff hnames).mp he
    refine ⟨holder, by simp [hstructs, hholder], s, by simp [hstructs], ?_, _, htakes', htakes⟩
    rintro rfl
    rw [hstructs, List.map_append, List.map_cons] at hnames
    exact List.disjoint_of_nodup_append hnames (List.mem_map_of_mem hholder) (by simp)
  · rintro ⟨s, hs, s', hs', hne, key, htakes, htakes'⟩
    cases hd : schema.dispatch options with
    | error e => exact ⟨e, rfl⟩
    | ok dispatch =>
      obtain ⟨r, hr, hkey⟩ := (takes_iff hnames).mp htakes
      obtain ⟨r', hr', hkey'⟩ := (takes_iff hnames).mp htakes'
      have hsame : r = r' := List.inj_on_of_nodup_map (dispatch_eq_ok.mp hd).1
        (List.mem_filterMap.mpr ⟨s, hs, hr⟩) (List.mem_filterMap.mpr ⟨s', hs', hr'⟩)
        (hkey.trans hkey'.symm)
      refine absurd (List.inj_on_of_nodup_map hnames hs hs' ?_) hne
      rw [← structName_of_registration? hr, ← structName_of_registration? hr', hsame]

end Schema

/-! ## The listing -/

namespace Registration

theorem before_eq_true {a b : String × Nat × Int} : before a b = true ↔
    a.1 < b.1 ∨ a.1 = b.1 ∧ (a.2.1 < b.2.1 ∨ a.2.1 = b.2.1 ∧ a.2.2 < b.2.2) := by
  simp [before]

theorem strict_before : Ordered.Strict before where
  irrefl a := by simp [before]
  trans {a b c} h h' := by
    rw [before_eq_true] at h h' ⊢
    rcases h with h | ⟨heq, h⟩
    · rcases h' with h' | ⟨heq', -⟩
      · exact Or.inl (String.lt_trans h h')
      · exact Or.inl (heq' ▸ h)
    · rcases h' with h' | ⟨heq', h'⟩
      · exact Or.inl (heq ▸ h')
      · exact Or.inr ⟨heq.trans heq', by omega⟩
  total {a b} h h' := by
    rw [Bool.eq_false_iff, Ne, before_eq_true] at h h'
    simp only [not_or, not_and] at h h'
    have hgroup : a.1 = b.1 :=
      String.le_antisymm (String.not_lt.mp h'.1) (String.not_lt.mp h.1)
    have hrest := h.2 hgroup
    have hrest' := h'.2 hgroup.symm
    exact Prod.ext hgroup (Prod.ext (by omega) (by omega))

end Registration

namespace Dispatch

variable {dispatch : Dispatch}

/-- The listing holds every registration under what it takes, if each takes something of its own. -/
theorem mem_listing (hkeys : (dispatch.registrations.map Registration.key).Nodup)
    {p : (String × Nat × Int) × DispatchEntry} :
    p ∈ Ordered.ofList Registration.before
        (dispatch.registrations.map fun r => (r.key, dispatch.entry r)) ↔
      p ∈ dispatch.registrations.map fun r => (r.key, dispatch.entry r) := by
  refine Ordered.mem_ofList Registration.strict_before ?_
  intro p hp q hq hkey
  obtain ⟨r, hr, rfl⟩ := List.mem_map.mp hp
  obtain ⟨r', hr', rfl⟩ := List.mem_map.mp hq
  rw [List.inj_on_of_nodup_map hkeys hr hr' hkey]

theorem mem_entries (hkeys : (dispatch.registrations.map Registration.key).Nodup)
    {e : DispatchEntry} :
    e ∈ dispatch.entries ↔ ∃ r ∈ dispatch.registrations, dispatch.entry r = e := by
  unfold entries
  rw [List.mem_map]
  constructor
  · rintro ⟨p, hp, rfl⟩
    obtain ⟨r, hr, rfl⟩ := List.mem_map.mp ((mem_listing hkeys).mp hp)
    exact ⟨r, hr, rfl⟩
  · rintro ⟨r, hr, rfl⟩
    exact ⟨_, (mem_listing hkeys).mpr (List.mem_map_of_mem hr), rfl⟩

theorem pairwise_entries (hkeys : (dispatch.registrations.map Registration.key).Nodup) :
    dispatch.entries.Pairwise DispatchEntry.Before := by
  unfold entries
  rw [List.pairwise_map]
  refine List.Pairwise.imp_of_mem ?_ (Ordered.sortedBy_ofList Registration.strict_before _)
  intro p q hp hq hbefore
  obtain ⟨r, -, rfl⟩ := List.mem_map.mp ((mem_listing hkeys).mp hp)
  obtain ⟨r', -, rfl⟩ := List.mem_map.mp ((mem_listing hkeys).mp hq)
  exact Registration.before_eq_true.mp hbefore

theorem nodup_entries (hkeys : (dispatch.registrations.map Registration.key).Nodup)
    (hnames : (dispatch.registrations.map (·.structName)).Nodup) :
    (dispatch.entries.map (·.structName)).Nodup := by
  refine List.Nodup.map_on ?_ ((pairwise_entries hkeys).imp fun {a b} hbefore => ?_)
  · intro e he e' he' hname
    obtain ⟨r, hr, rfl⟩ := (mem_entries hkeys).mp he
    obtain ⟨r', hr', rfl⟩ := (mem_entries hkeys).mp he'
    have hsame : r.structName = r'.structName := hname
    rw [List.inj_on_of_nodup_map hnames hr hr' hsame]
  · rintro rfl
    rcases hbefore with h | ⟨-, h⟩
    · exact String.lt_irrefl _ h
    · omega

/-- The name of a registration's discriminator is that of a registration in the same group under the
same discriminator. -/
theorem memberOf?_of_mem {r : Registration} (hr : r ∈ dispatch.registrations) :
    ∃ r' ∈ dispatch.registrations, r'.identity.group = r.identity.group ∧
      r'.identity.value = r.identity.value ∧
      dispatch.memberOf? r.identity.group r.identity.value = some r'.identity.member := by
  unfold memberOf?
  cases hfind : dispatch.registrations.reverse.find? fun r' =>
      r'.identity.group == r.identity.group && r'.identity.value == r.identity.value with
  | none =>
    have hnone := List.find?_eq_none.mp hfind r (List.mem_reverse.mpr hr)
    simp at hnone
  | some r' =>
    have hmatch := List.find?_some hfind
    simp only [Bool.and_eq_true, beq_iff_eq] at hmatch
    exact ⟨r', List.mem_reverse.mp (List.mem_of_find?_eq_some hfind), hmatch.1, hmatch.2, rfl⟩

end Dispatch

/-! ## The table of a schema -/

namespace Schema

variable {schema : Schema} {options : Options} {decls : List Declaration}

theorem nodup_of_ofDeclarations (h : ofDeclarations options decls = .ok schema) :
    (schema.structs.map Struct.name).Nodup := by
  simp only [ofDeclarations, bind_eq_ok, mapError_eq_ok] at h
  obtain ⟨types, htypes, hbuild⟩ := h
  obtain ⟨rfl, hstructs⟩ := build_eq_ok.mp hbuild
  rw [← forall₂_map_eq hstructs fun d s hd => (StructDecl.name_of_check hd).symm]
  exact nodup_structDecls (TypeTable.nodup_of_declare htypes)

/-- The identities that structs stand for are members of their groups' enums. -/
theorem hasMember_of_identified (h : ofDeclarations options decls = .ok schema) {fallback : Bool}
    {s : Struct} (hs : s ∈ schema.structs) {i : Identity} (hi : schema.Identified fallback s i) :
    schema.types.HasMember i.group i.member i.value := by
  simp only [ofDeclarations, bind_eq_ok, mapError_eq_ok] at h
  obtain ⟨types, -, hbuild⟩ := h
  obtain ⟨rfl, hstructs⟩ := build_eq_ok.mp hbuild
  have hown : ∀ s ∈ schema.structs, s.identity = some i →
      schema.types.HasMember i.group i.member i.value := by
    intro s hs hi
    obtain ⟨d, -, hd⟩ := forall₂_mem_right hstructs hs
    exact StructDecl.hasMember_of_check hd hi
  cases hi with
  | own _ hi => exact hown s hs hi
  | family _ _ _ _ hbase _ hi => exact hown _ hbase hi

theorem resolve?_eq_some (hnames : (schema.structs.map Struct.name).Nodup) {dispatch : Dispatch}
    (hd : schema.dispatch options = .ok dispatch) {group : String} {version : Nat} {id : Int}
    {name : String} : dispatch.resolve? group version id = some name ↔
      ∃ s ∈ schema.structs, s.name = name ∧
        schema.Takes options.versionFamilyFallback s (group, version, id) := by
  obtain ⟨hkeys, rfl⟩ := dispatch_eq_ok.mp hd
  rw [← exists_registration_iff hnames]
  have hat : (fun r : Registration => r.isAt group version id) =
      fun r => r.key == (group, version, id) := by
    funext r
    rw [Bool.eq_iff_iff, Registration.isAt_eq_true, beq_iff_eq]
  unfold Dispatch.resolve?
  rw [hat, Option.map_eq_some_iff]
  refine exists_congr fun r => ?_
  rw [find?_eq_some_of_nodup hkeys, and_assoc]

theorem identity?_eq_some (hnames : (schema.structs.map Struct.name).Nodup) {dispatch : Dispatch}
    (hd : schema.dispatch options = .ok dispatch) {name : String} {i : Identity} :
    dispatch.identity? name = some i ↔
      ∃ s ∈ schema.structs, s.name = name ∧ schema.Identified options.versionFamilyFallback s i := by
  obtain ⟨-, rfl⟩ := dispatch_eq_ok.mp hd
  unfold Dispatch.identity?
  simp only [Option.map_eq_some_iff, find?_eq_some_of_nodup (nodup_registered hnames)]
  constructor
  · rintro ⟨r, ⟨hr, rfl⟩, rfl⟩
    obtain ⟨s, hs, hname, hreg⟩ := exists_of_registration hr
    obtain ⟨i, hi, rfl⟩ := Option.map_eq_some_iff.mp hreg
    exact ⟨s, hs, hname, (effectiveIdentity?_eq_some hnames).mp hi⟩
  · rintro ⟨s, hs, rfl, hi⟩
    have hreg : schema.registration? options s =
        some { identity := i, version := s.version.getD 0, structName := s.name } :=
      Option.map_eq_some_iff.mpr ⟨i, (effectiveIdentity?_eq_some hnames).mpr hi, rfl⟩
    exact ⟨_, ⟨List.mem_filterMap.mpr ⟨s, hs, hreg⟩, rfl⟩, rfl⟩

theorem exists_entry_iff (hnames : (schema.structs.map Struct.name).Nodup) {dispatch : Dispatch}
    (hd : schema.dispatch options = .ok dispatch) {key : String × Nat × Int} {name : String} :
    (∃ e ∈ dispatch.entries, e.key = key ∧ e.structName = name) ↔
      ∃ s ∈ schema.structs, s.name = name ∧ schema.Takes options.versionFamilyFallback s key := by
  obtain ⟨hkeys, rfl⟩ := dispatch_eq_ok.mp hd
  rw [← exists_registration_iff hnames]
  constructor
  · rintro ⟨e, he, hkey, hname⟩
    obtain ⟨r, hr, rfl⟩ := (Dispatch.mem_entries hkeys).mp he
    exact ⟨r, hr, hkey, hname⟩
  · rintro ⟨r, hr, hkey, hname⟩
    exact ⟨_, (Dispatch.mem_entries hkeys).mpr ⟨r, hr, rfl⟩, hkey, hname⟩

/-- An entry names its discriminator by a member of the group's enum. -/
theorem hasMember_of_entry (h : ofDeclarations options decls = .ok schema) {options' : Options}
    {dispatch : Dispatch} (hd : schema.dispatch options' = .ok dispatch) {e : DispatchEntry}
    (he : e ∈ dispatch.entries) :
    ∃ member, e.member = some member ∧ schema.types.HasMember e.group member e.id := by
  obtain ⟨hkeys, rfl⟩ := dispatch_eq_ok.mp hd
  obtain ⟨r, hr, rfl⟩ := (Dispatch.mem_entries hkeys).mp he
  obtain ⟨r', hr', hgroup, hvalue, hmember⟩ := Dispatch.memberOf?_of_mem hr
  refine ⟨r'.identity.member, hmember, ?_⟩
  -- the name was given by a struct of the same group and discriminator, maybe in another version
  obtain ⟨s, hs, -, hreg⟩ := exists_of_registration hr'
  obtain ⟨i, hi, rfl⟩ := Option.map_eq_some_iff.mp hreg
  have hi := hasMember_of_identified h hs
    ((effectiveIdentity?_eq_some (nodup_of_ofDeclarations h)).mp hi)
  dsimp only at hgroup hvalue
  rwa [hgroup, hvalue] at hi

theorem tabulates_of_dispatch (h : ofDeclarations options decls = .ok schema) {options' : Options}
    {dispatch : Dispatch} (hd : schema.dispatch options' = .ok dispatch) :
    dispatch.Tabulates schema options'.versionFamilyFallback := by
  have hnames := nodup_of_ofDeclarations h
  obtain ⟨hkeys, hdispatch⟩ := dispatch_eq_ok.mp hd
  have hregistrations : dispatch.registrations =
      schema.structs.filterMap (schema.registration? options') := by rw [hdispatch]
  rw [← hregistrations] at hkeys
  constructor
  case resolve => exact fun group version id name => resolve?_eq_some hnames hd
  case listed => exact fun key name => exists_entry_iff hnames hd
  case once =>
    refine Dispatch.nodup_entries hkeys ?_
    rw [hregistrations]
    exact nodup_registered hnames
  case ascending => exact Dispatch.pairwise_entries hkeys
  case members => exact fun e he => hasMember_of_entry h hd he
  case identities => exact fun name i => identity?_eq_some hnames hd

end Schema

/-- **The dispatch is the table of what structs take.** Two structs take the same group, version and
discriminator exactly if a schema has no dispatch, and the first struct that takes what an earlier one
has taken is refused. Otherwise the dispatch resolves, lists and identifies the structs as they take. -/
theorem dispatch_tabulates {options : Options} {decls : List Declaration} {schema : Schema}
    (h : Schema.ofDeclarations options decls = .ok schema) (options' : Options) :
    ((∃ e, schema.dispatch options' = .error e) ↔
        ∃ s ∈ schema.structs, ∃ s' ∈ schema.structs, s ≠ s' ∧ ∃ key,
          schema.Takes options'.versionFamilyFallback s key ∧
          schema.Takes options'.versionFamilyFallback s' key) ∧
      (∀ e, schema.dispatch options' = .error e ↔
        schema.FirstClash options'.versionFamilyFallback e) ∧
      ∀ dispatch, schema.dispatch options' = .ok dispatch →
        dispatch.Tabulates schema options'.versionFamilyFallback :=
  have hnames := Schema.nodup_of_ofDeclarations h
  ⟨Schema.dispatch_fails_iff hnames, fun _ => Schema.dispatch_eq_error_iff hnames,
    fun _ hd => Schema.tabulates_of_dispatch h hd⟩

/-- Two versions of a struct, the second of which borrows the identity of the first. -/
def familyDeclarations : List Declaration :=
  [ .enum { name := "Kind", width := 2, signedness := .unsigned, comment := none
            members := [{ name := "transfer", value := .unsigned 1, comment := none }] },
    .struct { name := "Transfer", comment := none, disposition := none
              fields :=
                [ { name := some "TRANSACTION_TYPE", typeName := some "Kind"
                    disposition := some "const", value := some (.text "transfer") },
                  { name := some "TRANSACTION_VERSION", typeName := some "uint8"
                    disposition := some "const", value := some (.unsigned 1) } ] },
    .struct { name := "Transfer2", comment := none, disposition := none
              fields :=
                [ { name := some "TRANSACTION_VERSION", typeName := some "uint8"
                    disposition := some "const", value := some (.unsigned 2) } ] } ]

/-- The dispatch of both versions. -/
theorem dispatch_tabulates_family :
    ∃ schema, Schema.ofDeclarations {} familyDeclarations = .ok schema ∧
      ∃ dispatch, schema.dispatch {} = .ok dispatch ∧
        dispatch.resolve? "Kind" 2 1 = some "Transfer2" ∧ dispatch.Tabulates schema true := by
  obtain ⟨schema, hschema, hresolve⟩ : ∃ schema,
      Schema.ofDeclarations {} familyDeclarations = .ok schema ∧
        ∃ dispatch ∈ (schema.dispatch {}).toOption,
          dispatch.resolve? "Kind" 2 1 = some "Transfer2" :=
    exists_ok_of_toOption (by decide +kernel)
  obtain ⟨dispatch, hdispatch, hresolve⟩ := exists_ok_of_toOption hresolve
  exact ⟨schema, hschema, dispatch, hdispatch, hresolve,
    (dispatch_tabulates hschema {}).2.2 dispatch hdispatch⟩

end WireLayout
