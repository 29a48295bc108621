import Mathlib.Data.List.Nodup
import WireLayout.Compile
import WireLayout.Proofs.Outcome

/-!
# Discriminators

A schema has a dispatch when no two of its structs are registered under the same group, version and
discriminator. The dispatch then holds the registrations in the order of the structs, and what a
discriminator stands for is a struct of the schema.
-/

namespace WireLayout

namespace Registration

/-- The group, version and discriminator that a registration takes. -/
def key (r : Registration) : String × Nat × Int := (r.identity.group, r.version, r.identity.value)

theorem isAt_eq_true {r : Registration} {group : String} {version : Nat} {id : Int} :
    r.isAt group version id = true ↔ r.key = (group, version, id) := by
  simp [isAt, key, and_assoc]

theorem addTo_eq_ok {r : Registration} {taken registrations : List Registration} :
    r.addTo taken = .ok registrations ↔
      r.key ∉ taken.map key ∧ registrations = taken ++ [r] := by
  have hfree : taken.find? (fun t => t.isAt r.identity.group r.version r.identity.value) = none ↔
      r.key ∉ taken.map key := by
    rw [List.find?_eq_none]
    simp only [isAt_eq_true, List.mem_map, not_exists, not_and]
    rfl
  unfold addTo
  rw [← hfree]
  split
  · rename_i holder hholder
    simp [hholder]
  · rename_i hnone
    simp [hnone, eq_comm]

/-- A registration is refused if what it takes is held by another, which is named first. -/
theorem addTo_eq_error {r : Registration} {taken : List Registration} {e : DispatchError}
    (hone : (taken.map key).Nodup) :
    r.addTo taken = .error e ↔ ∃ holder ∈ taken, holder.key = r.key ∧
      e = { group := r.identity.group, version := r.version, id := r.identity.value
            holder := holder.structName, duplicate := r.structName } := by
  unfold addTo
  split
  · rename_i holder hfind
    have hkey : holder.key = r.key := isAt_eq_true.mp (by simpa using List.find?_some hfind)
    have hmem := List.mem_of_find?_eq_some hfind
    rw [Except.error.injEq]
    constructor
    · rintro rfl
      exact ⟨holder, hmem, hkey, rfl⟩
    · rintro ⟨holder', hmem', hkey', rfl⟩
      rw [List.inj_on_of_nodup_map hone hmem hmem' (hkey.trans hkey'.symm)]
  · rename_i hnone
    simp only [reduceCtorEq, false_iff, not_exists, not_and]
    intro holder hmem hkey
    exact absurd (isAt_eq_true.mpr hkey) (List.find?_eq_none.mp hnone holder hmem)

/-- Registrations are taken in one after the other, if no two of them take the same. -/
theorem foldlM_addTo {wanted taken registrations : List Registration} :
    wanted.foldlM (fun taken r => r.addTo taken) taken = .ok registrations ↔
      (wanted.map key).Nodup ∧ (∀ r ∈ wanted, r.key ∉ taken.map key) ∧
        registrations = taken ++ wanted := by
  induction wanted generalizing taken with
  | nil =>
    rw [List.foldlM_nil, pure_eq_ok]
    simp [eq_comm]
  | cons r wanted ih =>
    simp only [List.foldlM_cons, bind_eq_ok, addTo_eq_ok, ih, List.map_cons, List.nodup_cons,
      List.forall_mem_cons]
    constructor
    · rintro ⟨_, ⟨hr, rfl⟩, hnodup, hfree, rfl⟩
      simp only [List.map_append, List.mem_append, not_or] at hfree
      refine ⟨⟨?_, hnodup⟩, ⟨hr, fun t ht => (hfree t ht).1⟩, by simp⟩
      intro hmem
      obtain ⟨t, ht, hkey⟩ := List.mem_map.mp hmem
      exact (hfree t ht).2 (by simp [hkey])
    · rintro ⟨⟨hfirst, hnodup⟩, ⟨hr, hfree⟩, rfl⟩
      refine ⟨_, ⟨hr, rfl⟩, hnodup, fun t ht hmem => ?_, by simp⟩
      rw [List.map_append] at hmem
      rcases List.mem_append.mp hmem with hmem | hmem
      · exact hfree t ht hmem
      · exact hfirst (List.mem_map.mpr ⟨t, ht, by simpa using hmem⟩)

end Registration

namespace Schema

variable {schema : Schema} {options : Options} {dispatch : Dispatch}

theorem dispatch_eq_ok :
    schema.dispatch options = .ok dispatch ↔
      ((schema.structs.filterMap (schema.registration? options)).map Registration.key).Nodup ∧
        dispatch = { registrations := schema.structs.filterMap (schema.registration? options)
                     bindings := schema.structBindings options ++ schema.arrayBindings } := by
  unfold Schema.dispatch
  simp only [bind_eq_ok, Registration.foldlM_addTo, List.map_nil, List.not_mem_nil,
    not_false_eq_true, implies_true, true_and, List.nil_append, Except.ok.injEq]
  constructor
  · rintro ⟨_, ⟨hnodup, rfl⟩, rfl⟩
    exact ⟨hnodup, rfl⟩
  · rintro ⟨hnodup, rfl⟩
    exact ⟨_, ⟨hnodup, rfl⟩, rfl⟩

/-- A schema has no dispatch if the registration of a struct is refused after those before it. -/
theorem dispatch_eq_error {e : DispatchError} :
    schema.dispatch options = .error e ↔ ∃ before s after, schema.structs = before ++ s :: after ∧
      ((before.filterMap (schema.registration? options)).map Registration.key).Nodup ∧
      ∃ r, schema.registration? options s = some r ∧
        r.addTo (before.filterMap (schema.registration? options)) = .error e := by
  unfold Schema.dispatch
  simp only [bind_eq_error, reduceCtorEq, and_false, exists_false, or_false]
  rw [foldlM_eq_error]
  constructor
  · rintro ⟨taken, r, later, registrations, hwanted, htaken, hr⟩
    obtain ⟨hnodup, -, rfl⟩ := Registration.foldlM_addTo.mp htaken
    obtain ⟨before, rest, hstructs, rfl, hrest⟩ := List.filterMap_eq_append_iff.mp hwanted
    obtain ⟨skipped, s, after, rfl, hskipped, hs, -⟩ := List.filterMap_eq_cons_iff.mp hrest
    have hbefore : (before ++ skipped).filterMap (schema.registration? options) =
        before.filterMap (schema.registration? options) := by
      rw [List.filterMap_append, List.filterMap_eq_nil_iff.mpr hskipped, List.append_nil]
    refine ⟨before ++ skipped, s, after, by rw [hstructs, List.append_assoc], ?_, r, hs, ?_⟩
    · rwa [hbefore]
    · rwa [hbefore]
  · rintro ⟨before, s, after, hstructs, hnodup, r, hs, hr⟩
    refine ⟨before.filterMap (schema.registration? options), r,
      after.filterMap (schema.registration? options), before.filterMap (schema.registration? options),
      ?_, Registration.foldlM_addTo.mpr ⟨hnodup, by simp, rfl⟩, hr⟩
    rw [hstructs, List.filterMap_append, List.filterMap_cons_some hs]

/-- A registration is that of a struct. -/
theorem exists_of_registration {r : Registration}
    (hr : r ∈ schema.structs.filterMap (schema.registration? options)) :
    ∃ s ∈ schema.structs, s.name = r.structName ∧ schema.registration? options s = some r := by
  obtain ⟨s, hs, hreg⟩ := List.mem_filterMap.mp hr
  obtain ⟨identity, -, rfl⟩ := Option.map_eq_some_iff.mp hreg
  exact ⟨s, hs, rfl, hreg⟩

/-- A discriminator stands for a struct of the schema. -/
theorem hasStruct_of_resolve? (hd : schema.dispatch options = .ok dispatch) {group : String}
    {version : Nat} {id : Int} {name : String}
    (h : dispatch.resolve? group version id = some name) : schema.hasStruct name = true := by
  obtain ⟨-, rfl⟩ := dispatch_eq_ok.mp hd
  obtain ⟨r, hfind, rfl⟩ := Option.map_eq_some_iff.mp h
  obtain ⟨s, hs, hname, -⟩ := exists_of_registration (List.mem_of_find?_eq_some hfind)
  unfold hasStruct struct?
  rw [List.find?_isSome]
  exact ⟨s, hs, by simpa using hname⟩

end Schema

end WireLayout
