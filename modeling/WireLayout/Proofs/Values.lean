import WireLayout.Codec.Frame
import WireLayout.Proofs.OrderedMaps
import WireLayout.Proofs.Outcome

/-!
# Values and records

A record is a finite map from names to values: setting a field changes what is found under its name
and nothing else, and two ordered records in which the same is found are equal. What a record holds
nests less deep than the record.
-/

namespace WireLayout

/-! ## Maps by name -/

namespace Ordered

variable {α : Type}

/-- Pairs in the strict order of their names. -/
def Sorted (m : List (String × α)) : Prop := m.Pairwise fun a b => a.1 < b.1

theorem lookup_cons (p : String × α) (m : List (String × α)) (name : String) :
    (p :: m).lookup name = if name = p.1 then some p.2 else m.lookup name := by
  rw [List.lookup_cons]
  by_cases h : name = p.1
  · simp [h]
  · simp [h, beq_eq_false_iff_ne.mpr h]

theorem lookup_insert (key : String) (value : α) (m : List (String × α)) (name : String) :
    (insert byName key value m).lookup name =
      if name = key then some value else m.lookup name := by
  induction m with
  | nil => rw [insert, lookup_cons]
  | cons p rest ih =>
    have hanti : ¬ key < p.1 → ¬ p.1 < key → key = p.1 := fun h h' =>
      String.le_antisymm (String.not_lt.mp h') (String.not_lt.mp h)
    have hirr := String.lt_irrefl p.1
    rw [insert]
    simp only [byName, decide_eq_true_eq]
    by_cases h : key < p.1
    · rw [if_pos h, lookup_cons]
    · rw [if_neg h]
      by_cases h' : p.1 < key
      · rw [if_pos h', lookup_cons, lookup_cons, ih]
        grind
      · rw [if_neg h', lookup_cons, lookup_cons]
        grind

theorem Sorted.insert {m : List (String × α)} (h : Sorted m) (key : String) (value : α) :
    Sorted (insert byName key value m) := by
  have hby : SortedBy byName m := h.imp decide_eq_true
  exact (hby.insert strict_byName key value).imp of_decide_eq_true

/-- In an ordered map, a later pair has another name than the first. -/
theorem lookup_eq_none_of_lt {m : List (String × α)} {name : String}
    (h : ∀ p ∈ m, name < p.1) : m.lookup name = none := by
  rw [List.lookup_eq_none_iff]
  intro p hp
  have hne : name ≠ p.1 := fun he => String.lt_irrefl p.1 (he ▸ h p hp)
  simpa using hne

/-- Ordered maps in which the same is found are equal. -/
theorem Sorted.ext {m m' : List (String × α)} (h : Sorted m) (h' : Sorted m')
    (heq : ∀ name, m.lookup name = m'.lookup name) : m = m' := by
  induction m generalizing m' with
  | nil =>
    cases m' with
    | nil => rfl
    | cons q rest' =>
      have := heq q.1
      simp [lookup_cons] at this
  | cons p rest ih =>
    cases m' with
    | nil =>
      have := heq p.1
      simp [lookup_cons] at this
    | cons q rest' =>
      obtain ⟨k, v⟩ := p
      obtain ⟨l, w⟩ := q
      obtain ⟨hk, hrest⟩ := List.pairwise_cons.mp h
      obtain ⟨hl, hrest'⟩ := List.pairwise_cons.mp h'
      -- the first names agree, since each is found in the other map
      obtain rfl : k = l := by
        by_contra hne
        have h1 := heq k
        have h2 := heq l
        simp only [List.lookup_cons, beq_self_eq_true, beq_eq_false_iff_ne.mpr hne,
          beq_eq_false_iff_ne.mpr (Ne.symm hne)] at h1 h2
        obtain ⟨q, hq, hqn⟩ := List.lookup_isSome_iff.mp (h1 ▸ rfl : (rest'.lookup k).isSome)
        obtain ⟨p, hp, hpn⟩ := List.lookup_isSome_iff.mp (h2 ▸ rfl : (rest.lookup l).isSome)
        have hlk : l < k := by simpa [← beq_iff_eq.mp hqn] using hl q hq
        have hkl : k < l := by simpa [← beq_iff_eq.mp hpn] using hk p hp
        exact String.lt_asymm hlk hkl
      have hv := heq k
      simp only [List.lookup_cons, beq_self_eq_true, Option.some.injEq] at hv
      subst hv
      refine congrArg _ (ih hrest hrest' fun name => ?_)
      by_cases hname : name = k
      · subst hname
        rw [lookup_eq_none_of_lt hk, lookup_eq_none_of_lt hl]
      · have := heq name
        simpa [lookup_cons, hname] using this

end Ordered

/-! ## Values -/

namespace Value

theorem record?_eq_some {v : Value} {r : Record} : v.record? = some r ↔ v = r.toValue := by
  cases v <;> simp [record?, Record.toValue]
  case record typeName fields =>
    constructor
    · rintro rfl; exact ⟨rfl, rfl⟩
    · rintro ⟨rfl, rfl⟩; rfl

theorem list?_eq_some {v : Value} {items : List Value} :
    v.list? = some items ↔ v = .list items := by
  cases v <;> simp [list?]

@[simp] theorem record?_toValue (r : Record) : r.toValue.record? = some r := rfl

end Value

theorem asRecord_eq_ok {field : String} {v : Value} {r : Record} :
    asRecord field v = .ok r ↔ v = r.toValue := by
  unfold asRecord
  rw [← Value.record?_eq_some]
  cases v.record? <;> simp

theorem asInt_eq_ok {field : String} {v : Value} {n : Int} :
    asInt field v = .ok n ↔ v = .int n := by
  unfold asInt
  cases v <;> simp [Value.int?]

theorem asList_eq_ok {field : String} {v : Value} {items : List Value} :
    asList field v = .ok items ↔ v = .list items := by
  unfold asList
  rw [← Value.list?_eq_some]
  cases v.list? <;> simp

theorem asSize?_eq_some {v : Int} {n : Nat} : asSize? v = some n ↔ v = n ∧ n < sizeLimit := by
  unfold asSize?
  split
  · rw [Option.some.injEq]; omega
  · simp only [reduceCtorEq, false_iff]; omega

theorem toLength_eq_ok {field : String} {v : Int} {n : Nat} :
    toLength field v = .ok n ↔ v = n ∧ n < sizeLimit := by
  rw [← asSize?_eq_some]
  unfold toLength
  cases asSize? v <;> simp

theorem grow_eq_ok {total more n : Nat} {field : String} :
    grow total more field = .ok n ↔ n = total + more ∧ n < sizeLimit := by
  unfold grow
  split
  · rw [Except.ok.injEq]; omega
  · simp only [reduceCtorEq, false_iff]; omega

/-! ## Records -/

namespace Record

@[simp] theorem get?_empty (typeName name : String) : (empty typeName).get? name = none := rfl

theorem get?_insert (r : Record) (key : String) (v : Value) (name : String) :
    (r.insert key v).get? name = if name = key then some v else r.get? name :=
  Ordered.lookup_insert key v r.fields name

@[simp] theorem get?_insert_self (r : Record) (key : String) (v : Value) :
    (r.insert key v).get? key = some v := by rw [get?_insert, if_pos rfl]

theorem get?_insert_of_ne (r : Record) {key name : String} (v : Value) (h : name ≠ key) :
    (r.insert key v).get? name = r.get? name := by rw [get?_insert, if_neg h]

@[simp] theorem typeName_insert (r : Record) (key : String) (v : Value) :
    (r.insert key v).typeName = r.typeName := rfl

/-- What is found in a record is one of its fields. -/
theorem mem_of_get? {r : Record} {name : String} {v : Value} (h : r.get? name = some v) :
    (name, v) ∈ r.fields := by
  obtain ⟨l₁, l₂, hl, -⟩ := List.lookup_eq_some_iff.mp h
  rw [hl]
  simp

end Record

/-! ## Depth -/

namespace Value

theorem depth_le_itemsDepth {v : Value} {items : List Value} (h : v ∈ items) :
    v.depth ≤ itemsDepth items := by
  induction items with
  | nil => simp at h
  | cons w rest ih =>
    rw [itemsDepth]
    rcases List.mem_cons.mp h with rfl | h
    · exact Nat.le_max_left _ _
    · exact Nat.le_trans (ih h) (Nat.le_max_right _ _)

theorem depth_le_fieldsDepth {name : String} {v : Value} {fields : List (String × Value)}
    (h : (name, v) ∈ fields) : v.depth ≤ fieldsDepth fields := by
  induction fields with
  | nil => simp at h
  | cons p rest ih =>
    obtain ⟨k, w⟩ := p
    rw [fieldsDepth]
    rcases List.mem_cons.mp h with h | h
    · cases h; exact Nat.le_max_left _ _
    · exact Nat.le_trans (ih h) (Nat.le_max_right _ _)

end Value

namespace Record

theorem depth_eq (r : Record) : r.depth = Value.fieldsDepth r.fields + 1 := by
  rw [depth, toValue, Value.depth]

/-- A field nests less deep than its record. -/
theorem depth_lt_of_get? {r : Record} {name : String} {v : Value} (h : r.get? name = some v) :
    v.depth < r.depth := by
  rw [depth_eq]
  exact Nat.lt_succ_of_le (Value.depth_le_fieldsDepth (mem_of_get? h))

/-- An element of a field nests less deep than its record. -/
theorem depth_lt_of_mem {r : Record} {name : String} {items : List Value} {v : Value}
    (h : r.get? name = some (.list items)) (hv : v ∈ items) : v.depth < r.depth := by
  have hlist := depth_lt_of_get? h
  rw [Value.depth] at hlist
  exact Nat.lt_of_le_of_lt (Value.depth_le_itemsDepth hv) hlist

end Record

/-! ## Initial values inside a member -/

namespace Initializer

variable {i i' : Initializer} {name : String}

theorem inside?_eq_some : i.inside? name = some i' ↔
    ∃ next path, i.path = name :: next :: path ∧ i' = { path := next :: path, value := i.value } := by
  unfold inside?
  constructor
  · intro h
    split at h
    · rename_i head next path hpath
      split at h
      · rename_i hhead
        obtain rfl : head = name := by simpa using hhead
        cases h
        exact ⟨next, path, hpath, rfl⟩
      · cases h
    · cases h
  · rintro ⟨next, path, hpath, rfl⟩
    simp [hpath]

theorem mem_inside {initial : List Initializer} :
    (i' ∈ initial.filterMap fun i => i.inside? name) ↔ ∃ i ∈ initial, ∃ next path,
      i.path = name :: next :: path ∧ i' = { path := next :: path, value := i.value } := by
  simp only [List.mem_filterMap, inside?_eq_some]

end Initializer

end WireLayout
