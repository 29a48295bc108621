import WireLayout.Proofs.Registry

/-!
# Names that are defined one after the other

Definitions are given to an empty registry in any order, some of them more than once. Each is taken or
refused: taken, if its name is still free and it is right by itself, and refused without a trace
otherwise, also where its name was free and its members are wrong. So a registry holds the definitions
that were taken, and what a name was defined as it stays, whatever is tried later.
-/

namespace WireLayout

/-- Whether a definition is right by itself, its name aside: the members of an enum have different
names, and values of its integers. -/
def TypeDef.MembersFit : TypeDef → Prop
  | .enum e => (e.members.map (·.name)).Nodup ∧ ∀ m ∈ e.members, e.intType.contains m.value = true
  | _ => True

/-- Whether the same is told of a name wherever it is asked. -/
structure Answers.Consistent (a : Answers) : Prop where
  /-- The names of built-in integers mean these. -/
  builtin : ∀ name t, a.resolve? name = some (.builtin t) ↔ t.name = name
  /-- An enum is found under its own name, and is the one that is listed. -/
  enum : ∀ name e, a.resolve? name = some (.enum e) ↔ e ∈ a.enums ∧ e.name = name
  /-- What is found as an enum is what the name means. -/
  enum? : ∀ name e, a.enum? name = some e ↔ a.resolve? name = some (.enum e)
  /-- An alias is found under its own name, and is the one that is listed. -/
  «alias» : ∀ name d, a.resolve? name = some (.alias d) ↔ d ∈ a.aliases ∧ d.name = name
  /-- A struct's name means a struct. -/
  struct : ∀ name, a.isStruct name = true ↔ a.resolve? name = some .struct

namespace Registry

/-- Whether a registry takes a definition. -/
def Takes (r : Registry) (d : TypeDef) : Prop := (r.register d).1 = .ok ()

/-- The registry after calls on an empty one, whatever becomes of each. -/
def afterCalls (calls : List TypeDef) : Registry := calls.foldl (fun r d => (r.register d).2) {}

/-- Whether a definition is taken when its turn comes. -/
def Taken (calls : List TypeDef) (d : TypeDef) : Prop :=
  ∃ before after, calls = before ++ d :: after ∧ (afterCalls before).Takes d

/-- Whether a registry does all that a type table does. -/
structure Mirrors (r : Registry) (types : TypeTable) : Prop where
  /-- They tell the same. -/
  answers : r.answers = types.answers
  /-- They take the same definitions, and refuse others for the same reasons. -/
  register : ∀ d, (r.register d).1 = (types.register d).map fun _ => ()
  /-- They find the same faults in the declarations of a schema, and tell the same after them. -/
  declareFrom : ∀ decls, (r.declareFrom decls).1 = (types.declareFrom decls).1 ∧
    (r.declareFrom decls).2.answers = (types.declareFrom decls).2.answers

variable {calls : List TypeDef} {d : TypeDef}

/-! ## One call -/

/-- A call that fails leaves the registry as it was. -/
theorem register_of_not_takes {r : Registry} (h : ¬ r.Takes d) : (r.register d).2 = r := by
  unfold Takes at h
  rw [register_eq] at h ⊢
  split
  · rename_i hnone
    rw [hnone] at h
    exact absurd rfl h
  · rfl

/-! ## Many calls -/

theorem afterCalls_append (before after : List TypeDef) :
    afterCalls (before ++ after) = after.foldl (fun r d => (r.register d).2) (afterCalls before) :=
  List.foldl_append

theorem afterCalls_concat (calls : List TypeDef) (d : TypeDef) :
    afterCalls (calls ++ [d]) = ((afterCalls calls).register d).2 := afterCalls_append calls [d]

theorem taken_concat {e : TypeDef} :
    Taken (calls ++ [d]) e ↔ Taken calls e ∨ e = d ∧ (afterCalls calls).Takes d := by
  constructor
  · rintro ⟨before, after, heq, htakes⟩
    rcases List.eq_nil_or_concat after with rfl | ⟨after, last, rfl⟩
    · obtain ⟨rfl, hlast⟩ := List.append_inj' heq rfl
      obtain rfl : d = e := by simpa using hlast
      exact Or.inr ⟨rfl, htakes⟩
    · rw [List.concat_eq_append, ← List.cons_append, ← List.append_assoc] at heq
      obtain ⟨rfl, -⟩ := List.append_inj' heq rfl
      exact Or.inl ⟨before, after, rfl, htakes⟩
  · rintro (⟨before, after, rfl, htakes⟩ | ⟨rfl, htakes⟩)
    · exact ⟨before, after ++ [d], by simp, htakes⟩
    · exact ⟨calls, [], rfl, htakes⟩

end Registry

namespace TypeTable

variable {types types' : TypeTable} {calls : List TypeDef} {d : TypeDef}

/-! ## Names that are free -/

theorem ofName?_eq_some {name : String} {t : IntType} :
    IntType.ofName? name = some t ↔ t.name = name := by
  constructor
  · intro h
    simpa using List.find?_some h
  · rintro rfl
    obtain ⟨width, signedness⟩ := t
    cases width <;> cases signedness <;> decide

theorem ofName?_eq_none {name : String} :
    IntType.ofName? name = none ↔ ∀ t : IntType, t.name ≠ name := by
  simp only [Option.eq_none_iff_forall_ne_some, ne_eq, ofName?_eq_some]

theorem fault?_eq_none : d.fault? = none ↔ d.MembersFit := by
  cases d with
  | enum e =>
    have hfault : EnumDef.firstFault? e.name e.intType [] e.members = none ↔ _ :=
      firstFault?_eq_none
    simpa [TypeDef.fault?, TypeDef.MembersFit] using hfault
  | «alias» a => simp [TypeDef.fault?, TypeDef.MembersFit]
  | struct name => simp [TypeDef.fault?, TypeDef.MembersFit]

theorem register_eq_ok_iff : types.register d = .ok types' ↔
    ((∀ t : IntType, t.name ≠ d.name) ∧ (∀ e ∈ types.defs, e.name ≠ d.name) ∧ d.MembersFit) ∧
      types' = { defs := types.defs ++ [d] } := by
  have hfree : d.name ∉ types.defs.map TypeDef.name ↔ ∀ e ∈ types.defs, e.name ≠ d.name := by
    simp
  rw [register_eq_ok, Admits, ofName?_eq_none, fault?_eq_none, hfree]
  tauto

/-- The registry of a table takes what the table takes. -/
theorem Populated.takes_iff (h : types.Populated) : types.registry.Takes d ↔
    (∀ t : IntType, t.name ≠ d.name) ∧ (∀ e ∈ types.defs, e.name ≠ d.name) ∧ d.MembersFit := by
  unfold Registry.Takes
  rw [h.register_registry]
  cases hreg : types.register d with
  | ok types' => exact iff_of_true rfl (register_eq_ok_iff.mp hreg).1
  | error e =>
    refine iff_of_false (by simp) fun hfree => ?_
    rw [register_eq_ok_iff.mpr ⟨hfree, rfl⟩] at hreg
    cases hreg

theorem Populated.mirrors (h : types.Populated) : types.registry.Mirrors types where
  answers := h.answers_registry
  register d := by
    rw [h.register_registry]
    cases types.register d <;> rfl
  declareFrom decls := by
    rw [h.declareFrom_registry]
    exact ⟨rfl, (h.declareFrom decls).answers_registry⟩

/-- After any calls, a registry is that of a table that holds the definitions that were taken. -/
theorem exists_of_afterCalls (calls : List TypeDef) : ∃ types : TypeTable, types.Populated ∧
    Registry.afterCalls calls = types.registry ∧ ∀ e, e ∈ types.defs ↔ Registry.Taken calls e := by
  induction calls using List.reverseRecOn with
  | nil => exact ⟨{}, .empty, rfl, by simp [Registry.Taken]⟩
  | append_singleton calls d ih =>
    obtain ⟨types, hpopulated, hregistry, htaken⟩ := ih
    simp only [Registry.afterCalls_concat, Registry.taken_concat, ← htaken]
    by_cases htakes : (Registry.afterCalls calls).Takes d
    · have hreg : types.register d = .ok { defs := types.defs ++ [d] } :=
        register_eq_ok_iff.mpr ⟨hpopulated.takes_iff.mp (hregistry ▸ htakes), rfl⟩
      refine ⟨_, hpopulated.register hreg, ?_, by simp [htakes]⟩
      rw [hregistry, hpopulated.register_registry, hreg]
    · refine ⟨types, hpopulated, ?_, by simp [htakes]⟩
      rw [Registry.register_of_not_takes htakes, hregistry]

/-! ## What a name means -/

/-- A name means the integers that are built in under it, or what it is defined as. -/
theorem Populated.resolve?_eq_some (h : types.Populated) {name : String} {meaning : TypeMeaning} :
    types.resolve? name = some meaning ↔ (∃ t : IntType, t.name = name ∧ .builtin t = meaning) ∨
      ∃ d ∈ types.defs, d.name = name ∧ d.meaning = meaning := by
  unfold resolve?
  cases hname : IntType.ofName? name with
  | some t =>
    obtain rfl := ofName?_eq_some.mp hname
    constructor
    · intro heq
      exact Or.inl ⟨t, rfl, Option.some.inj heq⟩
    · rintro (⟨t', ht', rfl⟩ | ⟨d, hd, hdname, -⟩)
      · rw [ofName?_eq_some.mpr ht'] at hname
        rw [Option.some.inj hname]
      · exact absurd hdname.symm (ofName?_eq_none.mp (h.admits d hd).1 t)
  | none =>
    simp only [Option.map_eq_some_iff, h.find?_eq_some, and_assoc]
    constructor
    · exact Or.inr
    · rintro (⟨t, ht, -⟩ | hdef)
      · exact absurd ht (ofName?_eq_none.mp hname t)
      · exact hdef

theorem Populated.resolve?_of_mem (h : types.Populated) (hd : d ∈ types.defs) :
    types.resolve? d.name = some d.meaning :=
  h.resolve?_eq_some.mpr (Or.inr ⟨d, hd, rfl, rfl⟩)

theorem Populated.mem_enums (h : types.Populated) {e : EnumDef} :
    e ∈ types.enums ↔ .enum e ∈ types.defs := by
  refine (h.mem_listed TypeDef.fst_of_enumEntry?).trans ⟨?_, fun hd => ⟨_, hd, rfl⟩⟩
  rintro ⟨d | d | d, hd, hentry⟩ <;> cases hentry
  exact hd

theorem Populated.mem_aliases (h : types.Populated) {a : AliasDef} :
    a ∈ types.aliases ↔ .alias a ∈ types.defs := by
  refine (h.mem_listed TypeDef.fst_of_aliasEntry?).trans ⟨?_, fun hd => ⟨_, hd, rfl⟩⟩
  rintro ⟨d | d | d, hd, hentry⟩ <;> cases hentry
  exact hd

theorem Populated.consistent (h : types.Populated) : types.answers.Consistent := by
  constructor
  case builtin =>
    intro name t
    rw [answers, h.resolve?_eq_some]
    constructor
    · rintro (⟨t', rfl, heq⟩ | ⟨d | d | d, -, -, hmeaning⟩)
      · rw [TypeMeaning.builtin.inj heq]
      all_goals cases hmeaning
    · rintro rfl
      exact Or.inl ⟨t, rfl, rfl⟩
  case enum =>
    intro name e
    rw [answers, h.resolve?_eq_some, h.mem_enums]
    constructor
    · rintro (⟨t, -, heq⟩ | ⟨d | d | d, hd, rfl, hmeaning⟩)
      · cases heq
      all_goals cases hmeaning
      exact ⟨hd, rfl⟩
    · rintro ⟨he, rfl⟩
      exact Or.inr ⟨_, he, rfl, rfl⟩
  case enum? =>
    intro name e
    constructor
    · intro he
      obtain ⟨hmem, rfl, -⟩ := mem_of_enum? he
      exact h.resolve?_of_mem hmem
    · exact enum?_of_resolve?
  case «alias» =>
    intro name a
    rw [answers, h.resolve?_eq_some, h.mem_aliases]
    constructor
    · rintro (⟨t, -, heq⟩ | ⟨d | d | d, hd, rfl, hmeaning⟩)
      · cases heq
      all_goals cases hmeaning
      exact ⟨hd, rfl⟩
    · rintro ⟨ha, rfl⟩
      exact Or.inr ⟨_, ha, rfl, rfl⟩
  case struct =>
    intro name
    rw [answers, h.resolve?_eq_some]
    dsimp only
    unfold isStruct
    constructor
    · intro hstruct
      split at hstruct
      · rename_i name' hfind
        obtain ⟨hmem, rfl⟩ := h.find?_eq_some.mp hfind
        exact Or.inr ⟨_, hmem, rfl, rfl⟩
      · cases hstruct
    · rintro (⟨t, -, heq⟩ | ⟨d | d | d, hd, rfl, hmeaning⟩)
      · cases heq
      all_goals cases hmeaning
      rw [h.find?_eq_some.mpr ⟨hd, rfl⟩]

end TypeTable

/-- In every run of calls that give definitions to an empty registry:
* a definition is taken if and only if its name is not built in and was given to no definition taken
  before, of whatever kind, and, for an enum, its members have different names and values of its
  integers;
* a call that fails changes no answer, and makes no difference later;
* a definition that is taken is what its name means ever after;
* no name is given twice, and all that is told of a name is about one definition;
* and a type table in which the definitions were made that were taken does the same, call by call and
  for the declarations of a schema. -/
theorem names_defined_once (calls : List TypeDef) (d : TypeDef) :
    ((Registry.afterCalls calls).Takes d ↔ (∀ t : IntType, t.name ≠ d.name) ∧
        (∀ e, Registry.Taken calls e → e.name ≠ d.name) ∧ d.MembersFit) ∧
      (¬ (Registry.afterCalls calls).Takes d →
        ((Registry.afterCalls calls).register d).2.answers = (Registry.afterCalls calls).answers ∧
        ∀ later, Registry.afterCalls (calls ++ d :: later) = Registry.afterCalls (calls ++ later)) ∧
      ((Registry.afterCalls calls).Takes d → ∀ later,
        (Registry.afterCalls (calls ++ d :: later)).resolve? d.name = some d.meaning) ∧
      (∀ e e', Registry.Taken calls e → Registry.Taken calls e' → e.name = e'.name → e = e') ∧
      (Registry.afterCalls calls).answers.Consistent ∧
      ∃ types : TypeTable, types.Populated ∧ (∀ e, e ∈ types.defs ↔ Registry.Taken calls e) ∧
        (Registry.afterCalls calls).Mirrors types := by
  obtain ⟨types, hpopulated, hregistry, htaken⟩ := TypeTable.exists_of_afterCalls calls
  refine ⟨?_, fun hrefused => ⟨?_, fun later => ?_⟩, fun htakes later => ?_, ?_, ?_, types, hpopulated,
    htaken, hregistry ▸ hpopulated.mirrors⟩
  · rw [hregistry, hpopulated.takes_iff]
    simp only [htaken]
  · rw [Registry.register_of_not_takes hrefused]
  · rw [Registry.afterCalls_append, Registry.afterCalls_append, List.foldl_cons,
      Registry.register_of_not_takes hrefused]
  · obtain ⟨types', hpopulated', hregistry', htaken'⟩ :=
      TypeTable.exists_of_afterCalls (calls ++ d :: later)
    rw [hregistry', hpopulated'.resolve?_registry]
    exact hpopulated'.resolve?_of_mem ((htaken' d).mpr ⟨calls, later, rfl, htakes⟩)
  · intro e e' he he' hname
    exact List.inj_on_of_nodup_map hpopulated.nodup ((htaken e).mpr he) ((htaken e').mpr he') hname
  · rw [hregistry, hpopulated.answers_registry]
    exact hpopulated.consistent

/-- An enum with a member that its integers do not have. -/
def oversizedKind : TypeDef :=
  .enum { name := "Kind", intType := ⟨.one, .unsigned⟩, comment := none
          members := [{ name := "ping", value := 1, comment := none },
            { name := "pong", value := 256, comment := none }] }

/-- A refused enum leaves its name free; a struct takes it, and keeps it when an alias asks for it.
-/
theorem names_defined_once_kind :
    ¬ (Registry.afterCalls []).Takes oversizedKind ∧
      (Registry.afterCalls [oversizedKind]).resolve? "Kind" = none ∧
      (Registry.afterCalls [oversizedKind]).Takes (.struct "Kind") ∧
      (Registry.afterCalls [oversizedKind, .struct "Kind",
        .alias { name := "Kind", layout := .bytes 4 none, comment := none }]).resolve? "Kind" =
          some .struct := by
  have hrefused : ¬ (Registry.afterCalls []).Takes oversizedKind := by
    intro htakes
    obtain ⟨-, -, -, hfit⟩ := (names_defined_once [] oversizedKind).1.mp htakes
    exact absurd hfit (by decide)
  have hfree : (Registry.afterCalls [oversizedKind]).resolve? "Kind" = none := by
    have hsame := congrArg (fun a => a.resolve? "Kind")
      ((names_defined_once [] oversizedKind).2.1 hrefused).1
    exact hsame
  have htaken : (Registry.afterCalls [oversizedKind]).Takes (.struct "Kind") := by
    refine (names_defined_once [oversizedKind] (.struct "Kind")).1.mpr ⟨?_, ?_, trivial⟩
    · rintro ⟨width, signedness⟩
      cases width <;> cases signedness <;> decide
    · rintro e ⟨before, after, heq, htakes⟩
      obtain ⟨rfl, rfl, rfl⟩ : before = [] ∧ oversizedKind = e ∧ after = [] := by
        cases before <;> simp_all
      exact absurd htakes hrefused
  exact ⟨hrefused, hfree, htaken, (names_defined_once [oversizedKind] (.struct "Kind")).2.2.1 htaken _⟩

end WireLayout
