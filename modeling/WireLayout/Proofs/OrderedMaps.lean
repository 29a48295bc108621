import Mathlib.Data.List.Induction
import WireLayout.Ordered

/-!
# Ordered maps

A list of pairs in the order of their keys stays in this order when a key is set. A map that is made of
pairs, among which a key has one value, holds these pairs.
-/

namespace WireLayout.Ordered

variable {κ α : Type} {lt : κ → κ → Bool} {key : κ} {value : α} {m pairs : List (κ × α)} {p : κ × α}

/-- Whether a test is a strict order of all keys. -/
structure Strict (lt : κ → κ → Bool) : Prop where
  irrefl : ∀ a, lt a a = false
  trans : ∀ {a b c}, lt a b = true → lt b c = true → lt a c = true
  total : ∀ {a b}, lt a b = false → lt b a = false → a = b

theorem strict_byName : Strict byName where
  irrefl a := by simp [byName]
  trans h h' := by
    simp only [byName, decide_eq_true_eq] at h h' ⊢
    exact String.lt_trans h h'
  total h h' := by
    simp only [byName, decide_eq_false_iff_not] at h h'
    exact String.le_antisymm (String.not_lt.mp h') (String.not_lt.mp h)

/-- Pairs in the strict order of their keys. -/
def SortedBy (lt : κ → κ → Bool) (m : List (κ × α)) : Prop := m.Pairwise fun a b => lt a.1 b.1 = true

theorem eq_or_mem_of_mem_insert (h : p ∈ insert lt key value m) : p = (key, value) ∨ p ∈ m := by
  induction m with
  | nil => exact Or.inl (List.mem_singleton.mp h)
  | cons q rest ih =>
    simp only [insert] at h
    split at h
    · exact List.mem_cons.mp h
    · split at h
      · rcases List.mem_cons.mp h with rfl | h
        · exact Or.inr (by simp)
        · exact (ih h).imp id (List.mem_cons_of_mem _)
      · exact (List.mem_cons.mp h).imp id (List.mem_cons_of_mem _)

theorem SortedBy.insert (hlt : Strict lt) (h : SortedBy lt m) (key : κ) (value : α) :
    SortedBy lt (insert lt key value m) := by
  induction m with
  | nil => exact List.pairwise_singleton _ _
  | cons q rest ih =>
    obtain ⟨k, v⟩ := q
    obtain ⟨hk, hrest⟩ := List.pairwise_cons.mp h
    simp only [Ordered.insert]
    split
    · rename_i hless
      refine List.pairwise_cons.mpr ⟨fun q hq => ?_, h⟩
      rcases List.mem_cons.mp hq with rfl | hq
      · exact hless
      · exact hlt.trans hless (hk q hq)
    · rename_i hge
      split
      · rename_i hless
        refine List.pairwise_cons.mpr ⟨fun q hq => ?_, ih hrest⟩
        rcases eq_or_mem_of_mem_insert hq with rfl | hq
        · exact hless
        · exact hk q hq
      · rename_i hge'
        obtain rfl := hlt.total (Bool.eq_false_iff.mpr hge) (Bool.eq_false_iff.mpr hge')
        exact List.pairwise_cons.mpr ⟨hk, hrest⟩

/-- A map holds the pair that was set and those of other keys. -/
theorem SortedBy.mem_insert (hlt : Strict lt) (h : SortedBy lt m) :
    p ∈ Ordered.insert lt key value m ↔ p = (key, value) ∨ p ∈ m ∧ p.1 ≠ key := by
  induction m with
  | nil => simp [Ordered.insert]
  | cons q rest ih =>
    have hirrefl := hlt.irrefl key
    obtain ⟨k, v⟩ := q
    obtain ⟨hk, hrest⟩ := List.pairwise_cons.mp h
    simp only [Ordered.insert]
    split
    · rename_i hless
      -- all pairs have later keys
      have hne : ∀ q ∈ (k, v) :: rest, q.1 ≠ key := by
        rintro q hq rfl
        rcases List.mem_cons.mp hq with rfl | hq
        · rw [hirrefl] at hless
          cases hless
        · rw [hlt.trans hless (hk q hq)] at hirrefl
          cases hirrefl
      rw [List.mem_cons]
      exact or_congr_right ⟨fun hp => ⟨hp, hne p hp⟩, fun hp => hp.1⟩
    · rename_i hge
      split
      · rename_i hless
        have hne : k ≠ key := by
          rintro rfl
          rw [hirrefl] at hless
          cases hless
        rw [List.mem_cons, ih hrest, List.mem_cons]
        constructor
        · rintro (rfl | rfl | ⟨hp, hpne⟩)
          · exact Or.inr ⟨Or.inl rfl, hne⟩
          · exact Or.inl rfl
          · exact Or.inr ⟨Or.inr hp, hpne⟩
        · rintro (rfl | ⟨rfl | hp, hpne⟩)
          · exact Or.inr (Or.inl rfl)
          · exact Or.inl rfl
          · exact Or.inr (Or.inr ⟨hp, hpne⟩)
      · rename_i hge'
        obtain rfl := hlt.total (Bool.eq_false_iff.mpr hge) (Bool.eq_false_iff.mpr hge')
        have hne : ∀ q ∈ rest, q.1 ≠ key := by
          rintro q hq rfl
          have hless := hk q hq
          rw [hirrefl] at hless
          cases hless
        rw [List.mem_cons, List.mem_cons]
        constructor
        · rintro (rfl | hp)
          · exact Or.inl rfl
          · exact Or.inr ⟨Or.inr hp, hne p hp⟩
        · rintro (rfl | ⟨rfl | hp, hpne⟩)
          · exact Or.inl rfl
          · exact absurd rfl hpne
          · exact Or.inr hp

/-- In a map, what is found under a key is what it holds under it. -/
theorem SortedBy.lookup_eq_some [BEq κ] [LawfulBEq κ] (hlt : Strict lt) (h : SortedBy lt m) :
    m.lookup key = some value ↔ (key, value) ∈ m := by
  induction m with
  | nil => simp
  | cons q rest ih =>
    obtain ⟨k, v⟩ := q
    obtain ⟨hk, hrest⟩ := List.pairwise_cons.mp h
    rw [List.mem_cons, Prod.mk.injEq]
    by_cases hkey : key = k
    · obtain rfl := hkey
      have hlater : (key, value) ∉ rest := fun hmem =>
        Bool.false_ne_true ((hlt.irrefl key).symm.trans (hk _ hmem))
      simp [hlater, eq_comm]
    · rw [List.lookup_cons, beq_eq_false_iff_ne.mpr hkey, ih hrest]
      simp [hkey]

theorem ofList_concat (lt : κ → κ → Bool) (pairs : List (κ × α)) (p : κ × α) :
    ofList lt (pairs ++ [p]) = insert lt p.1 p.2 (ofList lt pairs) := by
  unfold ofList
  rw [List.foldl_append]
  rfl

/-- A map that is made of pairs is ordered. -/
theorem sortedBy_ofList (hlt : Strict lt) (pairs : List (κ × α)) :
    SortedBy lt (ofList lt pairs) := by
  induction pairs using List.reverseRecOn with
  | nil => exact List.Pairwise.nil
  | append_singleton pairs p ih =>
    rw [ofList_concat]
    exact ih.insert hlt p.1 p.2

/-- A map that is made of pairs holds them, if each key has one value. -/
theorem mem_ofList (hlt : Strict lt) (hone : ∀ p ∈ pairs, ∀ q ∈ pairs, p.1 = q.1 → p = q) :
    p ∈ ofList lt pairs ↔ p ∈ pairs := by
  induction pairs using List.reverseRecOn with
  | nil => exact Iff.rfl
  | append_singleton pairs q ih =>
    have hrest := ih fun a ha b hb => hone a (by simp [ha]) b (by simp [hb])
    rw [ofList_concat, (sortedBy_ofList hlt pairs).mem_insert hlt, hrest, List.mem_append,
      List.mem_singleton]
    constructor
    · rintro (rfl | ⟨hp, -⟩)
      · exact Or.inr rfl
      · exact Or.inl hp
    · rintro (hp | rfl)
      · by_cases hkey : p.1 = q.1
        · exact Or.inl (hone p (by simp [hp]) q (by simp) hkey)
        · exact Or.inr ⟨hp, hkey⟩
      · exact Or.inl rfl

end WireLayout.Ordered
