import WireLayout.Codec.Encode
import WireLayout.Proofs.Values

/-!
# Values that are treated alike

Two values are alike if they have the same shape, and the same content but for the records in them,
which only have to be related. Nothing that reads a value looks into its records: it hands them to a
measure or an encoder. So alike values are treated alike where related records have the same sizes and
the same bytes.
-/

namespace WireLayout

/-! ## Computations side by side -/

/-- Whether two computations fail alike, or have results that are related. -/
inductive Parallel {α : Type} (R : α → α → Prop) :
    Except CodecError α → Except CodecError α → Prop where
  | ok {a a' : α} : R a a' → Parallel R (.ok a) (.ok a')
  | error (e : CodecError) : Parallel R (.error e) (.error e)

theorem Parallel.bind_eq {α β : Type} {R : α → α → Prop} {x x' : Except CodecError α}
    {f f' : α → Except CodecError β} (h : Parallel R x x')
    (hf : ∀ a a', R a a' → f a = f' a') : x >>= f = x' >>= f' := by
  cases h with
  | ok hR => exact hf _ _ hR
  | error e => rfl

/-! ## Values -/

/-- Whether two values are the same but for their records, which are related in pairs. -/
inductive Value.Alike (P : Record → Record → Prop) : Value → Value → Prop where
  | int (n : Int) : Alike P (.int n) (.int n)
  | bytes (b : Bytes) : Alike P (.bytes b) (.bytes b)
  | list {items items' : List Value} : List.Forall₂ (Alike P) items items' →
      Alike P (.list items) (.list items')
  | record {ty : String} {fields fields' : List (String × Value)} :
      P ⟨ty, fields⟩ ⟨ty, fields'⟩ → Alike P (.record ty fields) (.record ty fields')

namespace Value.Alike

variable {P Q : Record → Record → Prop}

mutual

theorem refl (hP : ∀ r, P r r) : ∀ v : Value, Alike P v v
  | .int n => .int n
  | .bytes b => .bytes b
  | .list items => .list (reflItems hP items)
  | .record _ _ => .record (hP _)

theorem reflItems (hP : ∀ r, P r r) : ∀ items : List Value, List.Forall₂ (Alike P) items items
  | [] => .nil
  | v :: rest => .cons (refl hP v) (reflItems hP rest)

end

mutual

/-- Records that nest no deeper than the values may be related otherwise. -/
theorem imp : ∀ {v v' : Value}, Alike P v v' →
    (∀ r r' : Record, r.depth ≤ v.depth → r'.depth ≤ v'.depth → P r r' → Q r r') → Alike Q v v'
  | _, _, .int n, _ => .int n
  | _, _, .bytes b, _ => .bytes b
  | _, _, .list hitems, himp => .list (impItems hitems himp)
  | _, _, .record hP, himp => .record (himp _ _ (Nat.le_refl _) (Nat.le_refl _) hP)

theorem impItems : ∀ {items items' : List Value}, List.Forall₂ (Alike P) items items' →
    (∀ r r' : Record, r.depth ≤ itemsDepth items → r'.depth ≤ itemsDepth items' → P r r' →
      Q r r') → List.Forall₂ (Alike Q) items items'
  | _, _, .nil, _ => .nil
  | _, _, .cons hv hrest, himp =>
    .cons
      (imp hv fun r r' hr hr' =>
        himp r r' (Nat.le_trans hr (Nat.le_max_left _ _)) (Nat.le_trans hr' (Nat.le_max_left _ _)))
      (impItems hrest fun r r' hr hr' =>
        himp r r' (Nat.le_trans hr (Nat.le_max_right _ _))
          (Nat.le_trans hr' (Nat.le_max_right _ _)))

end

variable {v v' : Value}

theorem asInt_eq (h : Alike P v v') (field : String) : asInt field v = asInt field v' := by
  cases h <;> rfl

theorem int?_eq (h : Alike P v v') : v.int? = v'.int? := by
  cases h <;> rfl

theorem asList (h : Alike P v v') (field : String) :
    Parallel (List.Forall₂ (Alike P)) (asList field v) (asList field v') := by
  cases h with
  | list hitems => exact .ok hitems
  | _ => exact .error _

theorem asRecord (h : Alike P v v') (field : String) :
    Parallel (fun r r' => r.typeName = r'.typeName ∧ P r r') (asRecord field v)
      (asRecord field v') := by
  cases h with
  | record hP => exact .ok ⟨rfl, hP⟩
  | _ => exact .error _

theorem write_eq (h : Alike P v v') (leaf : Leaf) (field : String) :
    leaf.write field v = leaf.write field v' := by
  cases h with
  | int n => rfl
  | bytes b => rfl
  | list => unfold Leaf.write; cases leaf.form <;> rfl
  | record => unfold Leaf.write; cases leaf.form <;> rfl

end Value.Alike

/-! ## Sizes of elements -/

section Measuring

variable {P : Record → Record → Prop} {m m' : Measure} {items items' : List Value}

theorem elementSize_eq (hm : ∀ r r', P r r' → ∀ ty, m ty [] r = m' ty [] r') {v v' : Value}
    (h : v.Alike P v') (element : Element) (field : String) :
    element.size m field v = element.size m' field v' := by
  cases element with
  | leaf l => rfl
  | struct ty => exact (h.asRecord field).bind_eq fun r r' hr => hm r r' hr.2 ty

theorem elementsSize_eq (hm : ∀ r r', P r r' → ∀ ty, m ty [] r = m' ty [] r')
    (h : List.Forall₂ (Value.Alike P) items items') (element : Element) (field : String)
    (total : Nat) :
    elementsSize m element field total items = elementsSize m' element field total items' := by
  induction h generalizing total with
  | nil => rfl
  | cons hv _ ih =>
    unfold elementsSize
    rw [elementSize_eq hm hv]
    exact bind_congr fun size => bind_congr fun total => ih total

theorem regionLength_eq (hm : ∀ r r', P r r' → ∀ ty, m ty [] r = m' ty [] r')
    (h : List.Forall₂ (Value.Alike P) items items') (field : String) (align : Option Nat)
    (total : Nat) :
    regionLength m field align total items = regionLength m' field align total items' := by
  induction h generalizing total with
  | nil => rfl
  | cons hv _ ih =>
    unfold regionLength
    refine (hv.asRecord field).bind_eq fun r r' hr => ?_
    rw [hr.1, hm r r' hr.2]
    exact bind_congr fun size => bind_congr fun total => bind_congr fun total => ih total

end Measuring

/-! ## Bytes of elements -/

theorem joinM_eq {α : Type} {R : α → α → Prop} {l l' : List α}
    {f f' : α → Except CodecError Bytes} (h : List.Forall₂ R l l')
    (hf : ∀ a a', R a a' → f a = f' a') : joinM f l = joinM f' l' := by
  induction h with
  | nil => rfl
  | cons ha _ ih =>
    unfold joinM
    rw [hf _ _ ha, ih]

section Writing

variable {P : Record → Record → Prop} {e e' : Encoder} {items items' : List Value}

theorem elementWrite_eq (he : ∀ r r', P r r' → ∀ ty, e ty [] r = e' ty [] r') {v v' : Value}
    (h : v.Alike P v') (element : Element) (field : String) :
    element.write e field v = element.write e' field v' := by
  cases element with
  | leaf l => exact h.write_eq l field
  | struct ty => exact (h.asRecord field).bind_eq fun r r' hr => he r r' hr.2 ty

theorem regionBytes_eq (he : ∀ r r', P r r' → ∀ ty, e ty [] r = e' ty [] r')
    (h : List.Forall₂ (Value.Alike P) items items') (field : String) (align : Option Nat)
    (offset : Nat) :
    regionBytes e field align offset items = regionBytes e' field align offset items' := by
  induction h generalizing offset with
  | nil => rfl
  | cons hv _ ih =>
    unfold regionBytes
    refine (hv.asRecord field).bind_eq fun r r' hr => ?_
    rw [hr.1, he r r' hr.2]
    refine bind_congr fun bytes => ?_
    dsimp only
    rw [ih]

end Writing

end WireLayout
