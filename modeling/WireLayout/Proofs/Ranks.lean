import Mathlib.Data.Finset.Card
import Mathlib.Logic.Relation
import WireLayout.Proofs.Compiled

/-!
# Ranks

A relation between finitely many names that leads from no name back to it orders the names: what a
name leads to is less than what leads to it. The number of names that one leads to is its rank, which
falls with every step and is below the number of all names. Here the names are those of the structs of
a schema.
-/

namespace WireLayout

open Relation

variable {α : Type} {R : α → α → Prop} {names : Finset α} {a b : α}

open Classical in
/-- The names that a relation leads to from `a`, in one step or more. -/
noncomputable def leadsTo (R : α → α → Prop) (names : Finset α) (a : α) : Finset α :=
  names.filter fun b => TransGen R a b

theorem mem_leadsTo : b ∈ leadsTo R names a ↔ b ∈ names ∧ TransGen R a b := by
  classical
  exact Finset.mem_filter

theorem card_leadsTo_lt (hcycle : ¬ TransGen R b b) (hb : b ∈ names) (h : R a b) :
    (leadsTo R names b).card < (leadsTo R names a).card := by
  apply Finset.card_lt_card
  rw [Finset.ssubset_iff_of_subset]
  · refine ⟨b, mem_leadsTo.mpr ⟨hb, .single h⟩, ?_⟩
    intro hself
    exact hcycle (mem_leadsTo.mp hself).2
  · intro other hother
    obtain ⟨hmem, hpath⟩ := mem_leadsTo.mp hother
    exact mem_leadsTo.mpr ⟨hmem, .head h hpath⟩

theorem card_leadsTo_lt_card (hcycle : ¬ TransGen R a a) (ha : a ∈ names) :
    (leadsTo R names a).card < names.card := by
  apply Finset.card_lt_card
  rw [Finset.ssubset_iff_of_subset fun other hother => (mem_leadsTo.mp hother).1]
  refine ⟨a, ha, ?_⟩
  intro hself
  exact hcycle (mem_leadsTo.mp hself).2

/-- A relation along which a height falls leads from nothing back to it. -/
theorem not_transGen_of_height (height : α → Nat) (h : ∀ a b, R a b → height b < height a) (a : α) :
    ¬ TransGen R a a := by
  have hpath : ∀ b, TransGen R a b → height b < height a := by
    intro b hab
    induction hab with
    | single hab => exact h _ _ hab
    | tail _ hbc ih => exact Nat.lt_trans (h _ _ hbc) ih
  exact fun hcycle => Nat.lt_irrefl _ (hpath a hcycle)

theorem card_leadsTo_eq_zero (h : ∀ b, ¬ R a b) : (leadsTo R names a).card = 0 := by
  rw [Finset.card_eq_zero]
  apply Finset.eq_empty_of_forall_notMem
  intro other hother
  obtain ⟨next, hnext, -⟩ := TransGen.head'_iff.mp (mem_leadsTo.mp hother).2
  exact h next hnext

namespace Schema

variable {schema : Schema}

theorem mem_names_of_hasStruct {name : String} (h : schema.hasStruct name = true) :
    name ∈ (schema.structs.map (·.name)).toFinset := by
  obtain ⟨s, hs⟩ := Option.isSome_iff_exists.mp h
  exact List.mem_toFinset.mpr (List.mem_map.mpr ⟨s, mem_of_struct? hs⟩)

theorem card_names_le (schema : Schema) :
    (schema.structs.map (·.name)).toFinset.card ≤ schema.structs.length := by
  have hle := List.toFinset_card_le (schema.structs.map (·.name))
  rwa [List.length_map] at hle

/-- In a schema that has a struct, the rank of a name that does not lead back to itself is below the
number of structs, if only structs lead anywhere. -/
theorem card_leadsTo_lt_length {R : String → String → Prop}
    (hstructs : ∀ owner name, R owner name → schema.hasStruct owner = true) {name : String}
    (hcycle : ¬ TransGen R name name) (hpos : 0 < schema.structs.length) :
    (leadsTo R (schema.structs.map (·.name)).toFinset name).card < schema.structs.length := by
  by_cases hname : schema.hasStruct name = true
  · have hlt := card_leadsTo_lt_card hcycle (mem_names_of_hasStruct hname)
    exact Nat.lt_of_lt_of_le hlt schema.card_names_le
  · have hzero : (leadsTo R (schema.structs.map (·.name)).toFinset name).card = 0 := by
      apply card_leadsTo_eq_zero
      intro other hother
      exact hname (hstructs name other hother)
    omega

end Schema

end WireLayout
