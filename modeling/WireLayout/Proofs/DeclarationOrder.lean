import Mathlib.Data.List.Find
import Mathlib.Data.List.Perm.Basic
import WireLayout.Proofs.Derivation
import WireLayout.Proofs.Discriminators
import WireLayout.Proofs.Lookups

/-!
# The order of declarations

Names are defined before structs are built, and what was declared is found by name. So the order in
which a schema declares its names decides neither whether it compiles, nor at which stage it fails, nor
what its structs, plans and discriminators are. It does decide which header is bound to a group first,
and so which members a record may leave out; no step of a plan shows that.
-/

namespace WireLayout

/-! ## Outcomes -/

/-- A stage of a compilation. -/
inductive CompileStage where
  /-- The definitions of names. -/
  | definitions
  /-- The fields of structs. -/
  | fields
  /-- The references between structs. -/
  | dependencies
  /-- The discriminators. -/
  | dispatch
  /-- The plans. -/
  | derivation
  deriving DecidableEq

/-- The stage that found the faults. -/
def CompileError.stage : CompileError → CompileStage
  | .definitions _ => .definitions
  | .fields _ => .fields
  | .dependencies _ => .dependencies
  | .dispatch _ => .dispatch
  | .derivation _ => .derivation

variable {ε α β γ δ : Type}

/-- Whether two compilations end alike: with results that `R` relates, or with faults found at the
same stage. -/
def EndAlike (R : α → β → Prop) : Except CompileError α → Except CompileError β → Prop
  | .ok a, .ok b => R a b
  | .error e, .error e' => e.stage = e'.stage
  | _, _ => False

namespace EndAlike

variable {R : α → β → Prop} {S : γ → δ → Prop}

theorem bind {x : Except CompileError α} {y : Except CompileError β}
    {f : α → Except CompileError γ} {g : β → Except CompileError δ} (h : EndAlike R x y)
    (hfg : ∀ a b, x = .ok a → y = .ok b → R a b → EndAlike S (f a) (g b)) :
    EndAlike S (x >>= f) (y >>= g) := by
  cases x with
  | error e =>
    cases y with
    | error e' => exact h
    | ok b => exact h.elim
  | ok a =>
    cases y with
    | error e' => exact h.elim
    | ok b => exact hfg a b rfl rfl h

/-- One stage ends alike when either of its runs succeeds only if the other does. -/
theorem mapError (stage : CompileStage) {x : Except ε α} {y : Except ε β} {f : ε → CompileError}
    (hstage : ∀ e, (f e).stage = stage) (hx : ∀ a, x = .ok a → ∃ b, y = .ok b ∧ R a b)
    (hy : ∀ b, y = .ok b → ∃ a, x = .ok a) : EndAlike R (x.mapError f) (y.mapError f) := by
  cases x with
  | error e =>
    cases y with
    | error e' => exact (hstage e).trans (hstage e').symm
    | ok b =>
      obtain ⟨a, ha⟩ := hy b rfl
      cases ha
  | ok a =>
    obtain ⟨b, rfl, hR⟩ := hx a rfl
    exact hR

end EndAlike

/-! ## Definitions -/

/-- The results of a traversal stand in the order of its list. -/
theorem forall₂_of_perm {R : α → β → Prop} {l l' : List α} {bs : List β} (h : l.Perm l')
    (hR : List.Forall₂ R l bs) : ∃ bs', List.Forall₂ R l' bs' ∧ bs.Perm bs' := by
  obtain ⟨bs', hR', hperm⟩ := List.perm_comp_forall₂ h.symm hR
  exact ⟨bs', hR', hperm.symm⟩

/-- A declaration defines its own name. -/
theorem Declaration.name_of_define {d : Declaration} {t : TypeDef} (h : d.define = .ok t) :
    t.name = d.name := by
  unfold define at h
  split at h
  · obtain ⟨e, he, rfl⟩ := map_eq_ok.mp h
    unfold EnumDecl.define at he
    split at he
    · cases he
    · obtain ⟨members, -, he⟩ := bind_eq_ok.mp he
      cases he
      rfl
  · obtain ⟨a, ha, rfl⟩ := map_eq_ok.mp h
    unfold AliasDecl.define at ha
    split at ha
    · split at ha
      · cases ha
        rfl
      · cases ha
    · cases ha
      rfl
    · cases ha
  · cases h
    rfl

namespace TypeTable

/-- Whether a definition may be made where its name is free: it has no fault, and its name is not
built in. -/
def Admits (d : TypeDef) : Prop := IntType.ofName? d.name = none ∧ d.fault? = none

theorem find?_eq_none {types : TypeTable} {name : String} :
    types.find? name = none ↔ name ∉ types.defs.map TypeDef.name := by
  unfold find?
  simp [List.find?_eq_none]

theorem register_eq_ok {types types' : TypeTable} {d : TypeDef} :
    types.register d = .ok types' ↔
      Admits d ∧ d.name ∉ types.defs.map TypeDef.name ∧ types' = { defs := types.defs ++ [d] } := by
  rw [← find?_eq_none]
  unfold register isTaken resolve? Admits
  cases IntType.ofName? d.name with
  | some t => simp
  | none => cases types.find? d.name <;> cases d.fault? <;> simp [eq_comm]

theorem declareFrom_eq_nil {decls : List Declaration} {types types' : TypeTable} :
    types.declareFrom decls = ([], types') ↔
      ∃ defs, List.Forall₂ (fun d t => d.define = .ok t) decls defs ∧ (∀ t ∈ defs, Admits t) ∧
        (defs.map TypeDef.name).Nodup ∧
        (∀ t ∈ defs, t.name ∉ types.defs.map TypeDef.name) ∧
        types' = { defs := types.defs ++ defs } := by
  induction decls generalizing types with
  | nil => simp [declareFrom, eq_comm]
  | cons decl rest ih =>
    unfold declareFrom
    cases hreg : decl.define.bind types.register with
    | error e =>
      simp only [Prod.mk.injEq, reduceCtorEq, false_and, false_iff]
      rintro ⟨_ | ⟨d, defs⟩, hdefs, hadmits, -, hfree, -⟩
      · cases hdefs
      · obtain ⟨hd, -⟩ := List.forall₂_cons.mp hdefs
        have hok := register_eq_ok.mpr ⟨hadmits d (by simp), hfree d (by simp), rfl⟩
        rw [bind_eq_ok'.mpr ⟨d, hd, hok⟩] at hreg
        cases hreg
    | ok next =>
      obtain ⟨d, hd, hreg⟩ := bind_eq_ok'.mp hreg
      obtain ⟨hadmits, hfree, rfl⟩ := register_eq_ok.mp hreg
      simp only [ih, List.forall₂_cons_left_iff]
      constructor
      · rintro ⟨defs, hdefs, hall, hnodup, hnew, rfl⟩
        refine ⟨d :: defs, ⟨d, defs, hd, hdefs, rfl⟩, ?_, ?_, ?_, by simp⟩
        · exact List.forall_mem_cons.mpr ⟨hadmits, hall⟩
        · refine List.nodup_cons.mpr ⟨?_, hnodup⟩
          intro hmem
          obtain ⟨t, ht, hname⟩ := List.mem_map.mp hmem
          exact hnew t ht (by simp [hname])
        · refine List.forall_mem_cons.mpr ⟨hfree, fun t ht hmem => hnew t ht ?_⟩
          rw [List.map_append]
          exact List.mem_append_left _ hmem
      · rintro ⟨_, ⟨t, defs, ht, hdefs, rfl⟩, hall, hnodup, hnew, rfl⟩
        obtain rfl : d = t := Except.ok.inj (hd.symm.trans ht)
        obtain ⟨hfirst, hnodup⟩ := List.nodup_cons.mp hnodup
        obtain ⟨-, hall⟩ := List.forall_mem_cons.mp hall
        refine ⟨defs, hdefs, hall, hnodup, ?_, by simp⟩
        intro u hu hmem
        rw [List.map_append] at hmem
        rcases List.mem_append.mp hmem with hmem | hmem
        · exact hnew u (List.mem_cons_of_mem _ hu) hmem
        · exact hfirst (List.mem_map.mpr ⟨u, hu, by simpa using hmem⟩)

/-- The definitions of a schema: one for each declaration, without faults, under distinct names that
are not built in. -/
theorem declare_eq_ok {decls : List Declaration} {types : TypeTable} :
    declare decls = .ok types ↔
      List.Forall₂ (fun d t => d.define = .ok t) decls types.defs ∧
        (∀ t ∈ types.defs, Admits t) ∧ (types.defs.map TypeDef.name).Nodup := by
  have hnil : declare decls = .ok types ↔ declareFrom {} decls = ([], types) := by
    unfold declare
    split
    · rename_i types' heq
      simp [heq]
    · rename_i errors types' hne heq
      simp only [heq, reduceCtorEq, Prod.mk.injEq, false_iff]
      rintro ⟨rfl, -⟩
      exact hne rfl
  rw [hnil, declareFrom_eq_nil]
  constructor
  · rintro ⟨defs, hdefs, hall, hnodup, -, rfl⟩
    exact ⟨hdefs, hall, hnodup⟩
  · rintro ⟨hdefs, hall, hnodup⟩
    exact ⟨types.defs, hdefs, hall, hnodup, by simp, rfl⟩

/-- In whatever order names are declared, the same definitions are made. -/
theorem declare_perm {decls decls' : List Declaration} (h : decls.Perm decls') {types : TypeTable}
    (ht : declare decls = .ok types) :
    ∃ types', declare decls' = .ok types' ∧ types.Alike types' := by
  obtain ⟨hdefs, hall, hnodup⟩ := declare_eq_ok.mp ht
  obtain ⟨defs', hdefs', hperm⟩ := forall₂_of_perm h hdefs
  refine ⟨{ defs := defs' }, declare_eq_ok.mpr ⟨hdefs', ?_, ?_⟩, ?_⟩
  · exact fun t ht => hall t (hperm.mem_iff.mpr ht)
  · exact (hperm.map _).nodup_iff.mp hnodup
  · intro name
    refine List.find?_eq_find?_of_perm hperm ?_
    rintro a ⟨ha, hname⟩ b ⟨hb, hname'⟩
    exact List.inj_on_of_nodup_map hnodup ha hb (by simp_all)

/-- The declared names of a schema are distinct. -/
theorem nodup_of_declare {decls : List Declaration} {types : TypeTable}
    (ht : declare decls = .ok types) : (decls.map Declaration.name).Nodup := by
  obtain ⟨hdefs, -, hnodup⟩ := declare_eq_ok.mp ht
  rwa [forall₂_map_eq hdefs fun d t h => (Declaration.name_of_define h).symm]

/-- What a name was declared to be is what it means. -/
theorem resolve?_of_declare {decls : List Declaration} {types : TypeTable}
    (ht : declare decls = .ok types) {d : TypeDef} (hd : d ∈ types.defs) :
    types.resolve? d.name = some d.meaning := by
  obtain ⟨-, hadmits, hnodup⟩ := declare_eq_ok.mp ht
  have hfind : types.find? d.name = some d := (find?_eq_some_of_nodup hnodup).mpr ⟨hd, rfl⟩
  unfold resolve?
  rw [(hadmits d hd).1, hfind]
  rfl

end TypeTable

/-! ## Structs -/

theorem buildStructs_of_forall₂ {types : TypeTable} {options : Options} {decls : List StructDecl}
    {structs : List Struct}
    (h : List.Forall₂ (fun d s => d.check types options = .ok s) decls structs) :
    buildStructs types options decls = ([], structs) := by
  induction h with
  | nil => rfl
  | cons hd _ ih =>
    unfold buildStructs StructDecl.build
    rw [hd, ih]
    rfl

namespace Schema

/-- Two schemas of the same declarations in different orders. -/
structure Reordered (schema schema' : Schema) : Prop where
  types : schema.types.Alike schema'.types
  structs : schema.structs.Perm schema'.structs
  names : (schema.structs.map Struct.name).Nodup

theorem build_eq_ok {types : TypeTable} {options : Options} {decls : List Declaration}
    {schema : Schema} : build types options decls = .ok schema ↔ schema.types = types ∧
      List.Forall₂ (fun d s => d.check types options = .ok s) (structDecls decls)
        schema.structs := by
  unfold build
  constructor
  · intro h
    split at h
    · rename_i structs hstructs
      cases h
      exact ⟨rfl, forall₂_of_buildStructs hstructs⟩
    · cases h
  · rintro ⟨rfl, h⟩
    rw [buildStructs_of_forall₂ h]

/-- Every struct of a compiled schema was built from a declaration. -/
theorem exists_check_of_compile {options : Options} {decls : List Declaration} {c : Codec}
    (h : compile options decls = .ok c) {s : Struct} (hs : s ∈ c.schema.structs) :
    ∃ d : StructDecl, d.check c.schema.types options = .ok s := by
  obtain ⟨hschema, -, -, -⟩ := compile_eq_ok.mp h
  simp only [ofDeclarations, bind_eq_ok, mapError_eq_ok] at hschema
  obtain ⟨types, -, hbuild⟩ := hschema
  obtain ⟨rfl, hstructs⟩ := build_eq_ok.mp hbuild
  obtain ⟨d, -, hd⟩ := forall₂_mem_right hstructs hs
  exact ⟨d, hd⟩

/-- The name of a struct is that of no value. -/
theorem form?_of_struct? {options : Options} {decls : List Declaration} {c : Codec}
    (h : compile options decls = .ok c) {name : String} {s : Struct}
    (hs : c.schema.struct? name = some s) : c.schema.types.form? name = none := by
  obtain ⟨hschema, -, -, -⟩ := compile_eq_ok.mp h
  simp only [ofDeclarations, bind_eq_ok, mapError_eq_ok] at hschema
  obtain ⟨types, htypes, hbuild⟩ := hschema
  obtain ⟨rfl, hstructs⟩ := build_eq_ok.mp hbuild
  obtain ⟨hmem, hname⟩ := mem_of_struct? hs
  obtain ⟨d, hd, hcheck⟩ := forall₂_mem_right hstructs hmem
  obtain ⟨decl, hdecl, hstruct⟩ := List.mem_filterMap.mp hd
  obtain ⟨t, ht, hdefine⟩ := forall₂_mem_left (TypeTable.declare_eq_ok.mp htypes).1 hdecl
  cases decl with
  | struct d' =>
    cases hstruct
    cases hdefine
    have hresolve := TypeTable.resolve?_of_declare htypes ht
    have hd' : d.name = name := (StructDecl.name_of_check hcheck).symm.trans hname
    unfold TypeTable.form?
    rw [← hd', show d.name = (TypeDef.struct d.name).name from rfl, hresolve]
    rfl
  | _ => cases hstruct

theorem apart_of_compile {options : Options} {decls : List Declaration} {c : Codec}
    (h : compile options decls = .ok c) : c.schema.Apart :=
  fun _ _ hs => form?_of_struct? h hs

/-- The structs that are declared have distinct names if all declarations have. -/
theorem nodup_structDecls {decls : List Declaration} (h : (decls.map Declaration.name).Nodup) :
    ((structDecls decls).map StructDecl.name).Nodup := by
  refine List.Nodup.sublist ?_ h
  unfold structDecls
  induction decls with
  | nil => exact .slnil
  | cons d decls ih =>
    have hrest := ih (List.nodup_cons.mp h).2
    rcases d with d | d | d
    · exact hrest.cons _
    · exact hrest.cons _
    · exact hrest.cons_cons _

/-- In whatever order structs are declared, the same structs are built. -/
theorem build_perm {decls decls' : List Declaration} (h : decls.Perm decls')
    (hnames : (decls.map Declaration.name).Nodup) {types types' : TypeTable}
    (ht : types.Alike types') {options : Options} {schema : Schema}
    (hb : build types options decls = .ok schema) :
    ∃ schema', build types' options decls' = .ok schema' ∧ schema.Reordered schema' := by
  obtain ⟨rfl, hstructs⟩ := build_eq_ok.mp hb
  obtain ⟨structs', hstructs', hperm⟩ := forall₂_of_perm (h.filterMap _) hstructs
  refine ⟨{ types := types', structs := structs' }, build_eq_ok.mpr ⟨rfl, ?_⟩, ht, hperm, ?_⟩
  · refine hstructs'.imp fun d s hd => ?_
    rwa [← StructDecl.check_congr ht]
  · rw [← forall₂_map_eq hstructs fun d s hd => (StructDecl.name_of_check hd).symm]
    exact nodup_structDecls hnames

theorem ofDeclarations_perm (options : Options) {decls decls' : List Declaration}
    (h : decls.Perm decls') :
    EndAlike Reordered (ofDeclarations options decls) (ofDeclarations options decls') := by
  unfold ofDeclarations
  refine EndAlike.bind (R := fun types types' => types.Alike types') ?_ ?_
  · refine EndAlike.mapError .definitions (fun _ => rfl) ?_ ?_
    · exact fun types ht => TypeTable.declare_perm h ht
    · exact fun types' ht => (TypeTable.declare_perm h.symm ht).imp fun _ h => h.1
  · intro types types' ht ht' halike
    refine EndAlike.mapError .fields (fun _ => rfl) ?_ ?_
    · exact fun schema hb =>
        build_perm h (TypeTable.nodup_of_declare (mapError_eq_ok.mp ht)) halike hb
    · have hback : types'.Alike types := fun name => (halike name).symm
      exact fun schema' hb =>
        (build_perm h.symm (TypeTable.nodup_of_declare (mapError_eq_ok.mp ht')) hback hb).imp
          fun _ h => h.1

namespace Reordered

variable {schema schema' : Schema}

theorem symm (h : schema.Reordered schema') : schema'.Reordered schema :=
  ⟨fun name => (h.types name).symm, h.structs.symm, (h.structs.map _).nodup_iff.mp h.names⟩

theorem sameLookups (h : schema.Reordered schema') : schema.SameLookups schema' := by
  refine ⟨h.types, funext fun name => ?_, h.structs.length_eq⟩
  refine List.find?_eq_find?_of_perm h.structs ?_
  rintro a ⟨ha, hname⟩ b ⟨hb, hname'⟩
  exact List.inj_on_of_nodup_map h.names ha hb (by simp_all)

theorem dependencyErrors (h : schema.Reordered schema') :
    schema.dependencyErrors.isEmpty = schema'.dependencyErrors.isEmpty := by
  have hperm : schema.dependencyErrors.Perm schema'.dependencyErrors := by
    unfold Schema.dependencyErrors
    rw [h.sameLookups.headerErrors, h.sameLookups.unionErrors, h.sameLookups.recursionError?]
    exact h.structs.flatMap_right _
  exact hperm.isEmpty_eq

end Reordered

end Schema

/-! ## Discriminators -/

/-- Whether two dispatches answer every question alike. -/
structure Dispatch.Alike (dispatch dispatch' : Dispatch) : Prop where
  resolve? : ∀ group version id,
    dispatch.resolve? group version id = dispatch'.resolve? group version id
  identity? : ∀ structName, dispatch.identity? structName = dispatch'.identity? structName

/-- In whatever order structs are registered, the same discriminators stand for them. -/
theorem Schema.Reordered.dispatch {schema schema' : Schema} (h : schema.Reordered schema')
    {options : Options} {dispatch : Dispatch} (hd : schema.dispatch options = .ok dispatch) :
    ∃ dispatch', schema'.dispatch options = .ok dispatch' ∧ dispatch.Alike dispatch' := by
  obtain ⟨hnodup, rfl⟩ := dispatch_eq_ok.mp hd
  have hperm : (schema.structs.filterMap (schema.registration? options)).Perm
      (schema'.structs.filterMap (schema'.registration? options)) := by
    rw [h.sameLookups.registration?]
    exact h.structs.filterMap _
  refine ⟨_, dispatch_eq_ok.mpr ⟨(hperm.map _).nodup_iff.mp hnodup, rfl⟩, ?_, ?_⟩
  · intro group version id
    refine congrArg _ (List.find?_eq_find?_of_perm hperm ?_)
    rintro a ⟨ha, hkey⟩ b ⟨hb, hkey'⟩
    refine List.inj_on_of_nodup_map hnodup ha hb ?_
    rw [Registration.isAt_eq_true.mp hkey, Registration.isAt_eq_true.mp hkey']
  · intro name
    refine congrArg _ (List.find?_eq_find?_of_perm hperm ?_)
    -- a struct is registered once, and there is one struct of the name
    rintro a ⟨ha, hname⟩ b ⟨hb, hname'⟩
    obtain ⟨s, hs, hsname, hreg⟩ := Schema.exists_of_registration ha
    obtain ⟨s', hs', hsname', hreg'⟩ := Schema.exists_of_registration hb
    simp only [beq_iff_eq] at hname hname'
    obtain rfl : s = s' := List.inj_on_of_nodup_map h.names hs hs' (by
      rw [hsname, hsname', hname, hname'])
    exact Option.some.inj (hreg.symm.trans hreg')

/-! ## Codecs -/

/-- The steps of a plan: how values are measured, written and read. -/
def Plan.steps (plan : Plan) : List (Step SizeOp) × List (Step EncodeOp) × List (Step DecodeOp) :=
  (plan.size, plan.encode, plan.decode)

/-- Whether two codecs have the same structs with the same steps, and tell them apart by the same
discriminators. -/
structure Codec.Alike (c c' : Codec) : Prop where
  struct? : ∀ name, c.schema.struct? name = c'.schema.struct? name
  steps : ∀ name, (c.plan? name).map Plan.steps = (c'.plan? name).map Plan.steps
  dispatch : c.dispatch.Alike c'.dispatch

namespace Schema

variable {schema : Schema}

/-- The steps of a struct do not depend on the initial values. -/
theorem steps_of_planOf (s : Struct) (initial initial' : List Initializer) :
    (schema.planOf s initial).map Plan.steps = (schema.planOf s initial').map Plan.steps := by
  unfold planOf
  cases schema.unionSlots s with
  | error e => rfl
  | ok slots =>
    cases hentries : schema.wireEntries s slots with
    | error e => simp only [ok_bind, hentries, error_bind]
    | ok entries => simp only [ok_bind, hentries, ok_map, Plan.steps]

/-- The steps that are found under a name are those of the struct that is found there. -/
theorem steps_of_plans {initial : Struct → List Initializer} {structs : List Struct}
    {plans : List Plan}
    (h : List.Forall₂ (fun s p => schema.planOf s (initial s) = .ok p) structs plans)
    (name : String) :
    (plans.find? fun p => p.structName == name).map Plan.steps =
      (structs.find? fun s => s.name == name).bind fun s =>
        ((schema.planOf s []).map Plan.steps).toOption := by
  induction h with
  | nil => rfl
  | @cons s plan structs plans hplan _ ih =>
    have hname : plan.structName = s.name := by
      simp only [planOf, bind_eq_ok] at hplan
      obtain ⟨slots, -, entries, -, hplan⟩ := hplan
      cases hplan
      rfl
    rw [List.find?_cons, List.find?_cons, hname]
    cases s.name == name with
    | false => exact ih
    | true =>
      simp only [Option.map_some, Option.bind_some]
      rw [steps_of_planOf s [] (initial s), hplan]
      rfl

end Schema

/-- In whatever order a schema declares its names, it compiles to the same structs with the same steps
and discriminators, or it fails at the same stage. -/
theorem compile_perm (options : Options) {decls decls' : List Declaration}
    (h : decls.Perm decls') :
    EndAlike Codec.Alike (compile options decls) (compile options decls') := by
  unfold compile
  refine (Schema.ofDeclarations_perm options h).bind ?_
  intro schema schema' hschema hschema' hre
  simp only [hre.dependencyErrors]
  split
  · rename_i hdep
    rw [List.isEmpty_iff] at hdep
    refine EndAlike.bind (R := Dispatch.Alike) ?_ ?_
    · refine EndAlike.mapError .dispatch (fun _ => rfl) ?_ ?_
      · exact fun dispatch hd => hre.dispatch hd
      · exact fun dispatch' hd => (hre.symm.dispatch hd).imp fun _ h => h.1
    intro dispatch dispatch' _ _ hdispatch
    have hlinked := Schema.linked_of_dependencyErrors (Schema.built_of_ofDeclarations hschema)
      (List.isEmpty_iff.mp (hre.dependencyErrors.trans (List.isEmpty_iff.mpr hdep)))
    have hlinked' :=
      Schema.linked_of_dependencyErrors (Schema.built_of_ofDeclarations hschema') hdep
    obtain ⟨plans, hplans⟩ := mapM_ok_of_forall fun s hs =>
      hlinked.planOf_ok hs (schema.initializers dispatch options s)
    obtain ⟨plans', hplans'⟩ := mapM_ok_of_forall fun s hs =>
      hlinked'.planOf_ok hs (schema'.initializers dispatch' options s)
    rw [hplans, hplans']
    refine ⟨fun name => congrFun hre.sameLookups.struct? name, fun name => ?_, hdispatch⟩
    refine (Schema.steps_of_plans (mapM_eq_ok.mp hplans) name).trans ?_
    refine Eq.trans ?_ (Schema.steps_of_plans (mapM_eq_ok.mp hplans') name).symm
    rw [hre.sameLookups.planOf]
    exact congrArg (Option.bind · _) (congrFun hre.sameLookups.struct? name)
  · rfl

/-- The sample declared in reverse: the structs come before the types that they use. -/
theorem compile_perm_reversed :
    sampleDeclarations.Perm sampleDeclarations.reverse ∧
      ∃ c, compile {} sampleDeclarations.reverse = .ok c ∧ sampleCodec.Alike c := by
  have hperm := (List.reverse_perm sampleDeclarations).symm
  refine ⟨hperm, ?_⟩
  have h := compile_perm {} hperm
  rw [compile_sample] at h
  cases hc : compile {} sampleDeclarations.reverse with
  | error e => rw [hc] at h; exact h.elim
  | ok c => rw [hc] at h; exact ⟨c, rfl, h⟩

end WireLayout
