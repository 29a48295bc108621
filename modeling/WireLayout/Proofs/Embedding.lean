import Mathlib.Data.List.Chain
import WireLayout.Proofs.Ranks
import WireLayout.Proofs.Registrations

/-!
# Structs that embed themselves

A struct embeds the types of its plain and inline fields. The search for a chain of embedded structs
from one to another marks the structs it has entered and never enters one twice. If it returns without
a chain, then from every struct that it has marked it has tried all that the struct embeds: the marked
structs are closed under embedding, and the target is not among them. That is why marks made below one
field may stand when the next field is searched, and why a struct is reported exactly if it embeds
itself in the end.
-/

namespace WireLayout

open Relation

namespace Schema

variable {schema : Schema} {target : String}

/-- Whether a plain or inline field of the first struct has the second one as its type. -/
def Embeds (schema : Schema) (owner name : String) : Prop :=
  ∃ s, schema.struct? owner = some s ∧ schema.hasStruct name = true ∧
    ∃ f ∈ s.fields, f.isStored = true ∧ f.typeName = name

theorem mem_embedded {s : Struct} {f : Field} :
    f ∈ schema.embedded s ↔
      f ∈ s.fields ∧ f.isStored = true ∧ schema.hasStruct f.typeName = true := by
  unfold embedded embeds
  rw [List.mem_filter, Bool.and_eq_true]

theorem embeds_iff {owner : String} {s : Struct} (hs : schema.struct? owner = some s)
    {name : String} : schema.Embeds owner name ↔ ∃ f ∈ schema.embedded s, f.typeName = name := by
  constructor
  · rintro ⟨s', hs', hname, f, hf, hstored, rfl⟩
    obtain rfl := Option.some.inj (hs.symm.trans hs')
    exact ⟨f, mem_embedded.mpr ⟨hf, hstored, hname⟩, rfl⟩
  · rintro ⟨f, hf, rfl⟩
    obtain ⟨hmem, hstored, hname⟩ := mem_embedded.mp hf
    exact ⟨s, hs, hname, f, hmem, hstored, rfl⟩

/-! ## What a search without a chain has seen -/

/-- What a search has done that has marked the structs of `seen'` beside those of `seen` and has not
met the target. -/
structure Exhausts (schema : Schema) (target : String) (seen seen' : List String) : Prop where
  keeps : seen ⊆ seen'
  closed : ∀ x ∈ seen', x ∉ seen → ∀ y, schema.Embeds x y → y ≠ target ∧ y ∈ seen'

namespace Exhausts

theorem refl (seen : List String) : schema.Exhausts target seen seen where
  keeps := fun _ h => h
  closed := fun _ hx hnew => absurd hx hnew

theorem trans {seen₁ seen₂ seen₃ : List String} (h₁ : schema.Exhausts target seen₁ seen₂)
    (h₂ : schema.Exhausts target seen₂ seen₃) : schema.Exhausts target seen₁ seen₃ where
  keeps := fun _ hx => h₂.keeps (h₁.keeps hx)
  closed := by
    intro x hx hnew y hy
    by_cases hmid : x ∈ seen₂
    · obtain ⟨hne, hmem⟩ := h₁.closed x hmid hnew y hy
      exact ⟨hne, h₂.keeps hmem⟩
    · exact h₂.closed x hx hmid y hy

theorem not_reflTransGen {seen' : List String} (h : schema.Exhausts target [] seen') {x : String}
    (hx : x ∈ seen') (hne : x ≠ target) : ¬ ReflTransGen schema.Embeds x target := by
  intro hpath
  revert hx hne
  induction hpath using ReflTransGen.head_induction_on with
  | refl => exact fun _ hne => hne rfl
  | head hxy _ ih =>
    intro hx _
    obtain ⟨hne, hmem⟩ := h.closed _ hx List.not_mem_nil _ hxy
    exact ih hmem hne

end Exhausts

/-! ## The search -/

/-- A search through fields that finds nothing has searched each of them without result. -/
theorem exhausts_of_firstChain
    {search : List String → String → Option (List String) × List String} {fields : List Field}
    {seen seen' : List String}
    (hsearch : ∀ f ∈ fields, ∀ seen₁ seen₂, seen ⊆ seen₁ → search seen₁ f.typeName = (none, seen₂) →
      (f.typeName ≠ target ∧ f.typeName ∈ seen₂) ∧ schema.Exhausts target seen₁ seen₂)
    (h : firstChain search fields seen = (none, seen')) :
    (∀ f ∈ fields, f.typeName ≠ target ∧ f.typeName ∈ seen') ∧
      schema.Exhausts target seen seen' := by
  induction fields generalizing seen with
  | nil =>
    obtain rfl : seen = seen' := (Prod.mk.inj h).2
    exact ⟨nofun, .refl seen⟩
  | cons f rest ih =>
    unfold firstChain at h
    split at h
    · cases h
    · rename_i seen₁ hf
      obtain ⟨⟨hne, hmem⟩, hfirst⟩ := hsearch f List.mem_cons_self _ _ (fun _ hx => hx) hf
      obtain ⟨htried, hrest⟩ := ih (fun g hg seen₂ seen₃ hsub =>
        hsearch g (List.mem_cons_of_mem _ hg) seen₂ seen₃ fun x hx => hsub (hfirst.keeps hx)) h
      refine ⟨?_, hfirst.trans hrest⟩
      intro g hg
      rcases List.mem_cons.mp hg with rfl | hg
      · exact ⟨hne, hrest.keeps hmem⟩
      · exact htried g hg

/-- A search through fields finds a chain at one after it has searched those before it. -/
theorem split_of_firstChain
    {search : List String → String → Option (List String) × List String} {fields : List Field}
    {seen seen' chain : List String} {f : Field}
    (h : firstChain search fields seen = (some (f, chain), seen')) :
    ∃ before after seen₁, fields = before ++ f :: after ∧
      firstChain search before seen = (none, seen₁) ∧
      search seen₁ f.typeName = (some chain, seen') := by
  induction fields generalizing seen with
  | nil => cases h
  | cons g rest ih =>
    unfold firstChain at h
    split at h
    · rename_i chain' seen₁ hg
      cases h
      exact ⟨[], rest, seen, rfl, rfl, hg⟩
    · rename_i seen₁ hg
      obtain ⟨before, after, seen₂, rfl, hbefore, hf⟩ := ih h
      refine ⟨g :: before, after, seen₂, rfl, ?_, hf⟩
      unfold firstChain
      rw [hg]
      exact hbefore

/-- The names of the structs that are not marked. -/
def unseen (schema : Schema) (seen : List String) : Finset String :=
  (schema.structs.map (·.name)).toFinset \ seen.toFinset

theorem unseen_subset {seen seen' : List String} (h : seen ⊆ seen') :
    schema.unseen seen' ⊆ schema.unseen seen := by
  apply Finset.sdiff_subset_sdiff (Finset.Subset.refl _)
  intro x hx
  exact List.mem_toFinset.mpr (h (List.mem_toFinset.mp hx))

theorem mem_unseen {seen : List String} {name : String} (hname : schema.hasStruct name = true)
    (hnew : name ∉ seen) : name ∈ schema.unseen seen := by
  refine Finset.mem_sdiff.mpr ⟨mem_names_of_hasStruct hname, ?_⟩
  intro h
  exact hnew (List.mem_toFinset.mp h)

theorem card_unseen_cons_lt {seen : List String} {name : String}
    (hname : schema.hasStruct name = true) (hnew : name ∉ seen) :
    (schema.unseen (name :: seen)).card < (schema.unseen seen).card := by
  apply Finset.card_lt_card
  rw [Finset.ssubset_iff_of_subset (unseen_subset (List.subset_cons_self _ _))]
  refine ⟨name, mem_unseen hname hnew, ?_⟩
  intro h
  exact (Finset.mem_sdiff.mp h).2 (List.mem_toFinset.mpr List.mem_cons_self)

theorem card_unseen_le (seen : List String) :
    (schema.unseen seen).card ≤ schema.structs.length :=
  Nat.le_trans (Finset.card_le_card Finset.sdiff_subset) schema.card_names_le

/-- A search that finds no chain starts from a marked struct, where it stops, or enters one. -/
theorem stops_or_enters_of_chainTo {depth : Nat} {seen seen' : List String} {name : String}
    (h : schema.chainTo target depth seen name = (none, seen')) :
    name ≠ target ∧ (name ∈ seen ∧ seen' = seen ∨ name ∉ seen) := by
  unfold chainTo at h
  split at h
  · cases h
  · rename_i hne
    split at h
    · rename_i hseen
      cases h
      exact ⟨hne, .inl ⟨List.contains_iff_mem.mp hseen, rfl⟩⟩
    · rename_i hseen
      exact ⟨hne, .inr fun hmem => hseen (List.contains_iff_mem.mpr hmem)⟩

/-- A search that finds no chain has marked where it started, and all it has marked is searched. The
depth has to admit every struct that is not marked. -/
theorem exhausts_of_chainTo {depth : Nat} {seen seen' : List String} {name : String}
    (hname : schema.hasStruct name = true) (hdepth : (schema.unseen seen).card ≤ depth)
    (h : schema.chainTo target depth seen name = (none, seen')) :
    (name ≠ target ∧ name ∈ seen') ∧ schema.Exhausts target seen seen' := by
  induction depth generalizing seen seen' name with
  | zero =>
    obtain ⟨hne, ⟨hseen, rfl⟩ | hnew⟩ := stops_or_enters_of_chainTo h
    · exact ⟨⟨hne, hseen⟩, .refl _⟩
    · have hpos := Finset.card_pos.mpr ⟨name, mem_unseen hname hnew⟩
      omega
  | succ depth ih =>
    obtain ⟨hne, ⟨hseen, rfl⟩ | hnew⟩ := stops_or_enters_of_chainTo h
    · exact ⟨⟨hne, hseen⟩, .refl _⟩
    · obtain ⟨s, hs⟩ := Option.isSome_iff_exists.mp hname
      unfold chainTo at h
      rw [if_neg hne, if_neg fun hseen => hnew (List.contains_iff_mem.mp hseen)] at h
      simp only [hs] at h
      obtain ⟨hfound, rfl⟩ := Prod.mk.inj h
      have hlt := card_unseen_cons_lt hname hnew
      have hsearch : ∀ f ∈ schema.embedded s, ∀ seen₁ seen₂, name :: seen ⊆ seen₁ →
          schema.chainTo target depth seen₁ f.typeName = (none, seen₂) →
          (f.typeName ≠ target ∧ f.typeName ∈ seen₂) ∧ schema.Exhausts target seen₁ seen₂ := by
        intro f hf seen₁ seen₂ hsub hsearch
        have hle : (schema.unseen seen₁).card ≤ (schema.unseen (name :: seen)).card :=
          Finset.card_le_card (unseen_subset hsub)
        exact ih (mem_embedded.mp hf).2.2 (by omega) hsearch
      obtain ⟨htried, hinside⟩ :=
        exhausts_of_firstChain hsearch (Prod.ext (Option.map_eq_none_iff.mp hfound) rfl)
      refine ⟨⟨hne, hinside.keeps List.mem_cons_self⟩, ?_, ?_⟩
      · intro x hx
        exact hinside.keeps (List.mem_cons_of_mem _ hx)
      · intro x hx hxnew y hy
        by_cases hxname : x = name
        · subst hxname
          obtain ⟨f, hf, rfl⟩ := (embeds_iff hs).mp hy
          exact htried f hf
        · exact hinside.closed x hx (by simp [hxname, hxnew]) y hy

/-- Whether the structs of a list embed each the next one, from the first name to the second. -/
structure Chain (schema : Schema) (chain : List String) (first last : String) : Prop where
  head : chain.head? = some first
  last : chain.getLast? = some last
  steps : chain.IsChain schema.Embeds

theorem Chain.cons {chain : List String} {owner name : String} (h : schema.Chain chain name target)
    (hname : schema.Embeds owner name) : schema.Chain (owner :: chain) owner target where
  head := rfl
  last := by rw [List.getLast?_cons, h.last]; rfl
  steps := by
    refine h.steps.cons fun y hy => ?_
    rw [h.head] at hy
    cases hy
    exact hname

theorem Chain.reflTransGen {chain : List String} {first : String}
    (h : schema.Chain chain first target) : ReflTransGen schema.Embeds first target := by
  obtain ⟨hhead, hlast, hsteps⟩ := h
  cases chain with
  | nil => cases hhead
  | cons x rest =>
    cases hhead
    refine List.relationReflTransGen_of_exists_isChain_cons rest hsteps ?_
    rw [List.getLast?_eq_some_getLast (List.cons_ne_nil _ rest)] at hlast
    exact Option.some.inj hlast

/-- A chain that a search finds leads from where it started to the target. -/
theorem chain_of_chainTo {depth : Nat} {seen seen' chain : List String} {name : String}
    (h : schema.chainTo target depth seen name = (some chain, seen')) :
    schema.Chain chain name target := by
  induction depth generalizing seen seen' chain name with
  | zero =>
    unfold chainTo at h
    split at h
    · rename_i hname
      cases h
      exact ⟨rfl, congrArg some hname, List.isChain_singleton _⟩
    · split at h <;> cases h
  | succ depth ih =>
    unfold chainTo at h
    split at h
    · rename_i hname
      cases h
      exact ⟨rfl, congrArg some hname, List.isChain_singleton _⟩
    · split at h
      · cases h
      · cases hs : schema.struct? name with
        | none =>
          rw [hs] at h
          cases h
        | some s =>
          rw [hs] at h
          obtain ⟨hfound, rfl⟩ := Prod.mk.inj h
          obtain ⟨⟨f, inner⟩, hfirst, rfl⟩ := Option.map_eq_some_iff.mp hfound
          obtain ⟨before, after, seen₁, hfields, -, hsearch⟩ :=
            split_of_firstChain (Prod.ext hfirst rfl)
          refine (ih hsearch).cons ((embeds_iff hs).mpr ⟨f, ?_, rfl⟩)
          rw [hfields]
          simp

/-! ## The reports -/

/-- The reports of structs that embed themselves. -/
def recursions (schema : Schema) : List DependencyError :=
  schema.dependencyErrors.filter fun e => e.fault.code == "RecursiveLayout"

/-- What a report of a struct says: `f` is the first of the struct's plain and inline fields from
whose type the struct is reached, and the chain leads from that type to the struct. -/
structure Reports (schema : Schema) (s : Struct) (e : DependencyError) (f : Field)
    (chain : List String) : Prop where
  owner : e.structName = s.name
  field : e.field = f.name
  embeds : f.isStored = true ∧ schema.hasStruct f.typeName = true
  first : ∃ before after, s.fields = before ++ f :: after ∧
    ∀ g ∈ before, g.isStored = true → ¬ ReflTransGen schema.Embeds g.typeName s.name
  leads : schema.Chain chain f.typeName s.name
  message : e.message =
    let owner := s.name
    let field := f.name
    let path := String.intercalate " -> " (owner :: chain)
    s!"struct '{owner}' contains itself through '{field}' ({path})"

theorem code_of_headerFault? {b : HeaderBinding} {fault : DependencyFault}
    (h : schema.headerFault? b = some fault) : fault.code ≠ "RecursiveLayout" := by
  unfold headerFault? at h
  repeat' split at h
  all_goals cases h
  all_goals simp [DependencyFault.code]

/-- Of all that is wrong between structs, the searches of the structs report the recursions. -/
theorem recursions_eq (schema : Schema) :
    schema.recursions = schema.structs.filterMap schema.recursionError? := by
  have hheader : ∀ s, (schema.headerErrors s).filter
      (fun e => e.fault.code == "RecursiveLayout") = [] := by
    intro s
    rw [List.filter_eq_nil_iff]
    intro e he hcode
    obtain ⟨r, -, he⟩ := List.mem_filterMap.mp he
    obtain ⟨fault, hfault, rfl⟩ := Option.map_eq_some_iff.mp he
    exact code_of_headerFault? hfault (by simpa using hcode)
  have hunion : ∀ s, (schema.unionErrors s).filter
      (fun e => e.fault.code == "RecursiveLayout") = [] := by
    intro s
    rw [List.filter_eq_nil_iff]
    intro e he hcode
    obtain ⟨name, -, he⟩ := List.mem_filterMap.mp he
    obtain ⟨f, -, he⟩ := Option.bind_eq_some_iff.mp he
    split at he
    · cases he
    · cases he
      simp [DependencyFault.code] at hcode
  have hsearch : ∀ s, (schema.recursionError? s).toList.filter
      (fun e => e.fault.code == "RecursiveLayout") = (schema.recursionError? s).toList := by
    intro s
    rw [List.filter_eq_self]
    intro e he
    obtain ⟨p, -, rfl⟩ := Option.map_eq_some_iff.mp (Option.mem_toList.mp he)
    rfl
  unfold recursions dependencyErrors
  rw [List.filter_flatMap, List.filterMap_eq_flatMap_toList]
  apply List.flatMap_congr
  intro s _
  rw [List.filter_append, List.filter_append, hheader, hunion, hsearch]
  rfl

theorem mem_recursions {e : DependencyError} :
    e ∈ schema.recursions ↔ ∃ s ∈ schema.structs, schema.recursionError? s = some e := by
  rw [recursions_eq, List.mem_filterMap]

theorem name_of_recursionError? {s : Struct} {e : DependencyError}
    (h : schema.recursionError? s = some e) : e.structName = s.name := by
  obtain ⟨p, -, rfl⟩ := Option.map_eq_some_iff.mp h
  rfl

/-- A search from the start through fields that embed structs, which finds no chain, has seen all that
is reached from them. -/
theorem not_reflTransGen_of_firstChain {s : Struct} {fields : List Field} {seen : List String}
    (hfields : ∀ f ∈ fields, f ∈ schema.embedded s)
    (h : firstChain (schema.chainTo target schema.structs.length) fields [] = (none, seen)) :
    ∀ f ∈ fields, ¬ ReflTransGen schema.Embeds f.typeName target := by
  have hsearch : ∀ f ∈ fields, ∀ seen₁ seen₂, [] ⊆ seen₁ →
      schema.chainTo target schema.structs.length seen₁ f.typeName = (none, seen₂) →
      (f.typeName ≠ target ∧ f.typeName ∈ seen₂) ∧ schema.Exhausts target seen₁ seen₂ := by
    intro f hf seen₁ seen₂ _ hsearch
    exact exhausts_of_chainTo (mem_embedded.mp (hfields f hf)).2.2 (card_unseen_le seen₁) hsearch
  obtain ⟨htried, hseen⟩ := exhausts_of_firstChain hsearch h
  intro f hf
  obtain ⟨hne, hmem⟩ := htried f hf
  exact hseen.not_reflTransGen hmem hne

/-- A report names the first field that leads back. -/
theorem reports_of_recursionError? {s : Struct} (hs : schema.struct? s.name = some s)
    {e : DependencyError} (h : schema.recursionError? s = some e) :
    ∃ f chain, schema.Reports s e f chain := by
  obtain ⟨⟨f, chain⟩, hfound, rfl⟩ := Option.map_eq_some_iff.mp h
  obtain ⟨tried, others, seen, hembedded, htried, hsearch⟩ :=
    split_of_firstChain (Prod.ext hfound rfl)
  have hin : ∀ g ∈ tried, g ∈ schema.embedded s := by
    intro g hg
    rw [hembedded]
    exact List.mem_append_left _ hg
  have hf : f ∈ schema.embedded s := by
    rw [hembedded]
    exact List.mem_append_right _ List.mem_cons_self
  refine ⟨f, chain, rfl, rfl, (mem_embedded.mp hf).2, ?_, chain_of_chainTo hsearch, rfl⟩
  -- the fields before `f` are those that were tried, and others that embed no struct
  obtain ⟨before, rest, hsplit, hbefore, hrest⟩ := List.filter_eq_append_iff.mp hembedded
  obtain ⟨skipped, after, rfl, hskipped, -, -⟩ := List.filter_eq_cons_iff.mp hrest
  refine ⟨before ++ skipped, after, by rw [hsplit, List.append_assoc], ?_⟩
  intro g hg hstored hpath
  have hdeclared : schema.hasStruct g.typeName = true := by
    rcases ReflTransGen.cases_head hpath with heq | ⟨next, ⟨s', hs', -⟩, -⟩
    · exact Option.isSome_iff_exists.mpr ⟨s, by rw [heq, hs]⟩
    · exact Option.isSome_iff_exists.mpr ⟨s', hs'⟩
  have hembeds : schema.embeds g = true := by
    unfold embeds
    rw [hstored, hdeclared]
    rfl
  rcases List.mem_append.mp hg with hg | hg
  · have hg : g ∈ tried := by
      rw [← hbefore]
      exact List.mem_filter.mpr ⟨hg, hembeds⟩
    exact not_reflTransGen_of_firstChain hin htried g hg hpath
  · exact hskipped g hg hembeds

theorem recursionError?_isSome {s : Struct} (hs : schema.struct? s.name = some s) :
    (schema.recursionError? s).isSome = true ↔ TransGen schema.Embeds s.name s.name := by
  constructor
  · intro h
    obtain ⟨e, he⟩ := Option.isSome_iff_exists.mp h
    obtain ⟨f, chain, hr⟩ := reports_of_recursionError? hs he
    obtain ⟨before, after, hfields, -⟩ := hr.first
    have hmem : f ∈ s.fields := by
      rw [hfields]
      exact List.mem_append_right _ List.mem_cons_self
    exact .head' ⟨s, hs, hr.embeds.2, f, hmem, hr.embeds.1, rfl⟩ hr.leads.reflTransGen
  · intro hcycle
    by_contra hnone
    obtain ⟨next, hnext, hpath⟩ := TransGen.head'_iff.mp hcycle
    obtain ⟨f, hf, rfl⟩ := (embeds_iff hs).mp hnext
    have hfound : (firstChain (schema.chainTo s.name schema.structs.length)
        (schema.embedded s) []).1 = none := by
      unfold recursionError? at hnone
      rwa [Option.isSome_map, Bool.not_eq_true, Option.isSome_eq_false_iff,
        Option.isNone_iff_eq_none] at hnone
    exact not_reflTransGen_of_firstChain (fun _ h => h) (Prod.ext hfound rfl) f hf hpath

variable {options : Options} {decls : List Declaration}

theorem exists_recursion_iff (h : ofDeclarations options decls = .ok schema) (name : String) :
    (∃ e ∈ schema.recursions, e.structName = name) ↔ TransGen schema.Embeds name name := by
  have hnames := nodup_of_ofDeclarations h
  constructor
  · rintro ⟨e, he, rfl⟩
    obtain ⟨s, hs, he⟩ := mem_recursions.mp he
    rw [name_of_recursionError? he]
    have hfind := (find?_eq_some_of_nodup hnames).mpr ⟨hs, rfl⟩
    exact (recursionError?_isSome hfind).mp (Option.isSome_iff_exists.mpr ⟨e, he⟩)
  · intro hcycle
    obtain ⟨-, ⟨s, hs, -⟩, -⟩ := TransGen.head'_iff.mp hcycle
    obtain ⟨hmem, rfl⟩ := mem_of_struct? hs
    obtain ⟨e, he⟩ := Option.isSome_iff_exists.mp ((recursionError?_isSome hs).mpr hcycle)
    exact ⟨e, mem_recursions.mpr ⟨s, hmem, he⟩, name_of_recursionError? he⟩

theorem nodup_recursions (h : ofDeclarations options decls = .ok schema) :
    (schema.recursions.map (·.structName)).Nodup := by
  have hnames := List.pairwise_map.mp (nodup_of_ofDeclarations h)
  rw [recursions_eq]
  refine List.pairwise_map.mpr (List.pairwise_filterMap.mpr (hnames.imp ?_))
  intro s s' hne e he e' he'
  rw [name_of_recursionError? he, name_of_recursionError? he']
  exact hne

/-- In a schema that compiles no struct embeds itself. -/
theorem not_embeds_self_of_compile {c : Codec} (h : compile options decls = .ok c) (name : String) :
    ¬ TransGen c.schema.Embeds name name := by
  intro hcycle
  obtain ⟨hschema, hdep, -, -⟩ := compile_eq_ok.mp h
  obtain ⟨e, he, -⟩ := (exists_recursion_iff hschema name).mpr hcycle
  unfold recursions at he
  rw [hdep] at he
  cases he

end Schema

/-- **Recursive layouts are reported exactly.** The structs that embed themselves in the end are
reported, each once, at the first field that leads back and with the chain of structs on the way. -/
theorem recursion_reported {options : Options} {decls : List Declaration} {schema : Schema}
    (h : Schema.ofDeclarations options decls = .ok schema) :
    (∀ name, (∃ e ∈ schema.recursions, e.structName = name) ↔
        TransGen schema.Embeds name name) ∧
      (schema.recursions.map (·.structName)).Nodup ∧
      (∀ e ∈ schema.recursions, ∃ s ∈ schema.structs, ∃ f chain, schema.Reports s e f chain) ∧
      ∀ c, compile options decls = .ok c → ∀ name, ¬ TransGen c.schema.Embeds name name := by
  refine ⟨Schema.exists_recursion_iff h, Schema.nodup_recursions h, ?_,
    fun c => Schema.not_embeds_self_of_compile⟩
  intro e he
  obtain ⟨s, hs, he⟩ := Schema.mem_recursions.mp he
  have hfind := (find?_eq_some_of_nodup (Schema.nodup_of_ofDeclarations h)).mpr ⟨hs, rfl⟩
  exact ⟨s, hs, Schema.reports_of_recursionError? hfind he⟩

/-- Two structs that embed each other, and one that embeds the first of them. -/
def recursiveDeclarations : List Declaration :=
  [ .struct { name := "Outer", comment := none, disposition := none
              fields := [{ name := some "left", typeName := some "Left" }] },
    .struct { name := "Left", comment := none, disposition := none
              fields := [ { name := some "size", typeName := some "uint8" },
                          { name := some "right", typeName := some "Right" } ] },
    .struct { name := "Right", comment := none, disposition := none
              fields := [{ name := some "left", typeName := some "Left" }] } ]

/-- Both are reported, and the third one is not. -/
theorem recursion_reported_pair :
    ∃ schema, Schema.ofDeclarations {} recursiveDeclarations = .ok schema ∧
      schema.recursions.map DependencyError.message =
        [ "struct 'Left' contains itself through 'right' (Left -> Right -> Left)",
          "struct 'Right' contains itself through 'left' (Right -> Left -> Right)" ] ∧
      ¬ TransGen schema.Embeds "Outer" "Outer" ∧ TransGen schema.Embeds "Left" "Left" := by
  obtain ⟨schema, hschema, hmessages, hnames⟩ : ∃ schema,
      Schema.ofDeclarations {} recursiveDeclarations = .ok schema ∧
        schema.recursions.map DependencyError.message =
          [ "struct 'Left' contains itself through 'right' (Left -> Right -> Left)",
            "struct 'Right' contains itself through 'left' (Right -> Left -> Right)" ] ∧
        schema.recursions.map (·.structName) = ["Left", "Right"] :=
    exists_ok_of_toOption (by decide +kernel)
  have hexact := (recursion_reported hschema).1
  simp only [← List.mem_map, hnames] at hexact
  refine ⟨schema, hschema, hmessages, ?_, ?_⟩
  · rw [← hexact]
    decide
  · rw [← hexact]
    decide

end WireLayout
