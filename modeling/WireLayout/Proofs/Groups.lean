import WireLayout.Proofs.Outcome
import WireLayout.Struct

/-!
# Names and condition groups

In a struct whose field names are different, a name has one field and one place, and a field that is
tested by a condition belongs to one group.
-/

namespace WireLayout.Struct

variable {s : Struct}

/-! ## Names -/

/-- A field is found under its name. -/
theorem field?_of_mem (hs : (s.fields.map (·.name)).Nodup) {f : Field} (hf : f ∈ s.fields) :
    s.field? f.name = some f := (find?_eq_some_of_nodup hs).mpr ⟨hf, rfl⟩

/-- What is found under a name is a field of that name. -/
theorem mem_of_field? {name : String} {f : Field} (h : s.field? name = some f) :
    f ∈ s.fields ∧ f.name = name :=
  ⟨List.mem_of_find?_eq_some h, by simpa using List.find?_some h⟩

/-- The place of a field is found under its name. -/
theorem position?_of_getElem? (hs : (s.fields.map (·.name)).Nodup) {i : Nat} {f : Field}
    (hf : s.fields[i]? = some f) : s.position? f.name = some i := by
  obtain ⟨hi, rfl⟩ := List.getElem?_eq_some_iff.mp hf
  unfold position?
  rw [List.findIdx?_eq_some_iff_getElem]
  refine ⟨hi, by simp, fun j hj => ?_⟩
  have hne : s.fields[j].name ≠ s.fields[i].name := by
    intro h
    have hij := (@List.Nodup.getElem_inj_iff _ _ hs j (by simp; omega) i (by simpa using hi)).mp
      (by simpa using h)
    omega
  simpa using hne

/-- What is found at a place has the name that was searched. -/
theorem getElem?_of_position? {name : String} {i : Nat} (h : s.position? name = some i) :
    ∃ f, s.fields[i]? = some f ∧ f.name = name := by
  unfold position? at h
  obtain ⟨hi, hname, -⟩ := List.findIdx?_eq_some_iff_getElem.mp h
  exact ⟨s.fields[i], List.getElem?_eq_getElem hi, by simpa using hname⟩

/-! ## Lengths -/

theorem mem_regionsMeasuredBy {name : String} {p : String × Option Nat} :
    p ∈ s.regionsMeasuredBy name ↔ ∃ f ∈ s.fields, ∃ layout, f.sizedArray? = some layout ∧
      layout.lengthField = name ∧ p = (f.name, layout.align) := by
  unfold regionsMeasuredBy
  rw [List.mem_filterMap]
  refine exists_congr fun f => and_congr_right fun _ => ?_
  cases f.sizedArray? with
  | none => simp
  | some layout =>
    by_cases h : layout.lengthField = name
    · simp [h, eq_comm]
    · simp [h]

theorem isCount_eq_true {name : String} :
    s.isCount name = true ↔ ∃ f ∈ s.fields, f.countedBy? = some name := by
  unfold isCount arraysCountedBy
  rw [Bool.not_eq_true', List.isEmpty_eq_false_iff_exists_mem]
  simp only [List.mem_map, List.mem_filter, beq_iff_eq]
  constructor
  · rintro ⟨-, f, ⟨hf, hc⟩, -⟩
    exact ⟨f, hf, hc⟩
  · rintro ⟨f, hf, hc⟩
    exact ⟨f.name, f, ⟨hf, hc⟩, rfl⟩

/-! ## Groups -/

theorem mem_conditioned {name tested : String} :
    (name, tested) ∈ s.conditioned ↔
      ∃ f ∈ s.fields, f.isConst = false ∧ f.name = name ∧
        ∃ c, f.condition = some c ∧ c.field = tested := by
  unfold conditioned
  rw [List.mem_filterMap]
  refine exists_congr fun f => and_congr_right fun _ => ?_
  cases hc : f.isConst with
  | true => simp
  | false =>
    simp only [Bool.false_eq_true, if_false, Option.map_eq_some_iff, Prod.mk.injEq, true_and]
    constructor
    · rintro ⟨c, hc, hname, htest⟩
      exact ⟨hname, c, hc, htest⟩
    · rintro ⟨hname, c, hc, htest⟩
      exact ⟨c, hc, hname, htest⟩

theorem mem_members_groupOf {name tested : String} :
    name ∈ (s.groupOf tested).members ↔ (name, tested) ∈ s.conditioned := by
  simp [groupOf]

theorem mem_groups {g : ConditionGroup} :
    g ∈ s.groups ↔ ∃ name tested, (name, tested) ∈ s.conditioned ∧ g = s.groupOf tested := by
  unfold groups
  simp only [List.mem_map, List.mem_eraseDups, Prod.exists]
  constructor
  · rintro ⟨tested, ⟨name, tested', hmem, rfl⟩, rfl⟩
    exact ⟨name, tested', hmem, rfl⟩
  · rintro ⟨name, tested, hmem, rfl⟩
    exact ⟨tested, ⟨name, tested, hmem, rfl⟩, rfl⟩

/-- A group is determined by the field that it tests. -/
theorem eq_groupOf_of_mem {g : ConditionGroup} (hg : g ∈ s.groups) :
    g = s.groupOf g.conditionField := by
  obtain ⟨name, tested, -, rfl⟩ := mem_groups.mp hg
  rfl

/-- A group has a member. -/
theorem members_ne_nil {g : ConditionGroup} (hg : g ∈ s.groups) : g.members ≠ [] := by
  obtain ⟨name, tested, hmem, rfl⟩ := mem_groups.mp hg
  exact List.ne_nil_of_mem (mem_members_groupOf.mpr hmem)

/-- The members of a group are fields on the wire whose condition tests the group's field. -/
theorem field_of_mem_members {g : ConditionGroup} (hg : g ∈ s.groups) {name : String}
    (hname : name ∈ g.members) :
    ∃ f ∈ s.fields, f.isConst = false ∧ f.name = name ∧
      ∃ c, f.condition = some c ∧ c.field = g.conditionField := by
  rw [eq_groupOf_of_mem hg] at hname
  exact mem_conditioned.mp (mem_members_groupOf.mp hname)

theorem mem_unions {g : ConditionGroup} : g ∈ s.unions ↔ g ∈ s.groups ∧ g.isUnion = true :=
  List.mem_filter

/-- The union of a field is the group of the field that its condition tests. -/
theorem unionOf?_eq_some_iff (hs : (s.fields.map (·.name)).Nodup) {f : Field} (hf : f ∈ s.fields)
    {g : ConditionGroup} :
    s.unionOf? f.name = some g ↔
      f.isConst = false ∧ ∃ c, f.condition = some c ∧ g = s.groupOf c.field ∧
        g.isUnion = true := by
  have key : ∀ g ∈ s.unions, f.name ∈ g.members → f.isConst = false ∧
      ∃ c, f.condition = some c ∧ g = s.groupOf c.field := by
    intro g hg hmem
    obtain ⟨f', hf', hconst, hname, c, hc, htest⟩ :=
      field_of_mem_members (mem_unions.mp hg).1 hmem
    obtain rfl := List.inj_on_of_nodup_map hs hf' hf hname
    exact ⟨hconst, c, hc, by rw [htest]; exact eq_groupOf_of_mem (mem_unions.mp hg).1⟩
  unfold unionOf?
  constructor
  · intro h
    have hmem := List.mem_of_find?_eq_some h
    obtain ⟨hconst, c, hc, hg⟩ := key g hmem (by simpa using List.find?_some h)
    exact ⟨hconst, c, hc, hg, (mem_unions.mp hmem).2⟩
  · rintro ⟨hconst, c, hc, rfl, hunion⟩
    have hcond : (f.name, c.field) ∈ s.conditioned :=
      mem_conditioned.mpr ⟨f, hf, hconst, rfl, c, hc, rfl⟩
    obtain ⟨g, hg⟩ : ∃ g, s.unions.find? (fun g => g.members.contains f.name) = some g := by
      rw [← Option.isSome_iff_exists, List.find?_isSome]
      exact ⟨s.groupOf c.field, mem_unions.mpr ⟨mem_groups.mpr ⟨_, _, hcond, rfl⟩, hunion⟩,
        by simpa using mem_members_groupOf.mpr hcond⟩
    obtain ⟨-, c', hc', rfl⟩ :=
      key g (List.mem_of_find?_eq_some hg) (by simpa using List.find?_some hg)
    rw [hc] at hc'
    obtain rfl := Option.some.inj hc'
    exact hg

/-- A field that is always present belongs to no union. -/
theorem unionOf?_of_unconditioned (hs : (s.fields.map (·.name)).Nodup) {f : Field}
    (hf : f ∈ s.fields) (hc : f.condition = none) : s.unionOf? f.name = none := by
  rw [Option.eq_none_iff_forall_ne_some]
  intro g hg
  obtain ⟨-, c, hc', -⟩ := (unionOf?_eq_some_iff hs hf).mp hg
  rw [hc] at hc'
  cases hc'

/-! ## The order of a group -/

/-- The first of a list of names comes first in every list that holds them in this order. -/
theorem index_le_of_sublist {a b : String} {l m : List String} (h : (a :: l).Sublist m)
    (hb : b ∈ a :: l) (hm : m.Nodup) {i j : Nat} (hi : m[i]? = some a) (hj : m[j]? = some b) :
    i ≤ j := by
  induction m generalizing i j with
  | nil => simp at hi
  | cons x m ih =>
    cases i with
    | zero => exact Nat.zero_le _
    | succ i =>
      obtain ⟨hx, hm⟩ := List.nodup_cons.mp hm
      have ha : a ∈ m := List.mem_of_getElem? hi
      have hax : x ≠ a := fun he => hx (he ▸ ha)
      have hsub : (a :: l).Sublist m := by
        cases h with
        | cons _ h => exact h
        | cons_cons _ h => exact absurd rfl hax
      cases j with
      | zero =>
        simp only [List.getElem?_cons_zero, Option.some.injEq] at hj
        exact absurd (hj ▸ hsub.subset hb) hx
      | succ j => exact Nat.succ_le_succ (ih hsub hm hi hj)

/-- What a list holds in its front comes before what it holds after it, in every list that holds them in
this order. -/
theorem index_lt_of_sublist {a b : String} {l l' m : List String} (h : (l ++ l').Sublist m)
    (ha : a ∈ l) (hb : b ∈ l') (hm : m.Nodup) {i j : Nat} (hi : m[i]? = some a)
    (hj : m[j]? = some b) : i < j := by
  obtain ⟨front, back, rfl, hfront, hback⟩ := List.append_sublist_iff.mp h
  have hdisjoint := (List.nodup_append.mp hm).2.2
  have hilt : i < front.length := by
    by_contra hle
    rw [List.getElem?_append_right (by omega)] at hi
    exact hdisjoint a (hfront.subset ha) a (List.mem_of_getElem? hi) rfl
  have hjle : ¬ j < front.length := by
    intro hlt
    rw [List.getElem?_append_left hlt] at hj
    exact hdisjoint b (List.mem_of_getElem? hj) b (hback.subset hb) rfl
  omega

/-- The conditioned fields come in the order of the fields. -/
theorem conditioned_sublist (s : Struct) :
    (s.conditioned.map (·.1)).Sublist (s.fields.map (·.name)) := by
  change ((s.fields.filterMap _).map _).Sublist _
  generalize s.fields = fields
  induction fields with
  | nil => exact List.Sublist.refl _
  | cons f rest ih =>
    rw [List.map_cons, List.filterMap_cons]
    split
    · exact ih.cons f.name
    · rename_i p hp
      have hname : p.1 = f.name := by
        split at hp
        · cases hp
        · obtain ⟨c, -, rfl⟩ := Option.map_eq_some_iff.mp hp
          rfl
      rw [List.map_cons, hname]
      exact ih.cons_cons f.name

/-- The members of a group come in the order of the fields. -/
theorem members_sublist (s : Struct) (tested : String) :
    (s.groupOf tested).members.Sublist (s.fields.map (·.name)) :=
  (List.filter_sublist.map _).trans s.conditioned_sublist

/-- The fields that the groups test, in the order of the groups. -/
theorem map_conditionField_groups (s : Struct) :
    s.groups.map (·.conditionField) = (s.conditioned.map (·.2)).eraseDups := by
  unfold groups
  rw [List.map_map]
  exact List.map_id _

theorem nodup_eraseDups (l : List String) : l.eraseDups.Nodup := by
  induction hn : l.length using Nat.strongRecOn generalizing l with
  | _ n ih =>
    cases l with
    | nil => simp
    | cons a l =>
      rw [List.eraseDups_cons, List.nodup_cons]
      refine ⟨by simp, ih _ ?_ _ rfl⟩
      have hle := List.length_filter_le (fun b => !b == a) l
      rw [List.length_cons] at hn
      omega

/-- No two groups test the same field. -/
theorem nodup_groups (s : Struct) : (s.groups.map (·.conditionField)).Nodup :=
  s.map_conditionField_groups ▸ nodup_eraseDups _

/-- What is left of a list without repetitions comes in the order of first occurrence. -/
theorem pairwise_eraseDups (l : List String) : l.eraseDups.Pairwise fun a b =>
    ∃ before after, l = before ++ a :: after ∧ b ∉ before ∧ b ≠ a := by
  induction hn : l.length using Nat.strongRecOn generalizing l with
  | _ n ih =>
    cases l with
    | nil => simp
    | cons a l =>
      have hle := List.length_filter_le (fun b => !b == a) l
      rw [List.length_cons] at hn
      rw [List.eraseDups_cons, List.pairwise_cons]
      constructor
      · intro b hb
        have hb : b ∈ l ∧ b ≠ a := by simpa using hb
        exact ⟨[], l, rfl, List.not_mem_nil, hb.2⟩
      · refine (ih _ (by omega) _ rfl).imp_of_mem fun {b d} hb hd hbefore => ?_
        have hda : d ≠ a := by simpa using (List.mem_filter.mp (List.mem_eraseDups.mp hd)).2
        -- what was filtered out is `a`, which is not `d`
        obtain ⟨before, after, heq, hnot, hne⟩ := hbefore
        obtain ⟨front, back, rfl, rfl, hback⟩ := List.filter_eq_append_iff.mp heq
        obtain ⟨gap, rest, rfl, hgap, -, -⟩ := List.filter_eq_cons_iff.mp hback
        refine ⟨a :: (front ++ gap), rest, by simp, ?_, hne⟩
        simp only [List.mem_cons, List.mem_append, not_or]
        refine ⟨hda, fun hmem => hnot (List.mem_filter.mpr ⟨hmem, by simpa using hda⟩), fun hmem => ?_⟩
        exact hgap d hmem (by simpa using hda)

/-- The groups come in the order of their first members. -/
theorem pairwise_groups (hs : (s.fields.map (·.name)).Nodup) : s.groups.Pairwise fun g h =>
    ∀ first first' : String, g.members.head? = some first → h.members.head? = some first' →
      ∀ i j : Nat, (s.fields.map (·.name))[i]? = some first → (s.fields.map (·.name))[j]? = some first' →
        i < j := by
  unfold groups
  rw [List.pairwise_map]
  refine (pairwise_eraseDups _).imp fun {t t'} hbefore => ?_
  intro first first' hfirst hfirst' i j hi hj
  obtain ⟨before, after, heq, hnot, hne⟩ := hbefore
  obtain ⟨front, back, hsplit, rfl, hback⟩ := List.map_eq_append_iff.mp heq
  obtain ⟨⟨x, t⟩, rest, rfl, rfl, rfl⟩ := List.map_eq_cons_iff.mp hback
  have hsub := s.conditioned_sublist
  rw [hsplit, List.append_cons, List.map_append] at hsub
  refine index_lt_of_sublist hsub ?_ ?_ hs hi hj
  · -- the first member of the earlier group is not after the first field that tests its field
    have hmembers : (s.groupOf t).members =
        ((front ++ [(x, t)]).filter fun p => p.2 == t).map (·.1) ++
          (rest.filter fun p => p.2 == t).map (·.1) := by
      unfold groupOf
      rw [hsplit, List.append_cons, List.filter_append, List.map_append]
    dsimp only at hfirst
    rw [hmembers, List.head?_append_of_ne_nil _ (by simp)] at hfirst
    have hmem := List.mem_of_mem_head? hfirst
    exact (List.filter_sublist.map _).subset hmem
  · have hmem := mem_members_groupOf.mp (List.mem_of_mem_head? hfirst')
    rw [hsplit] at hmem
    rcases List.mem_append.mp hmem with hmem | hmem
    · exact absurd (List.mem_map.mpr ⟨_, hmem, rfl⟩) hnot
    · rcases List.mem_cons.mp hmem with heq | hmem
      · exact absurd (congrArg Prod.snd heq) hne
      · exact List.mem_map.mpr ⟨_, hmem, rfl⟩

/-- Where no union holds a field, the field that its condition tests comes earlier. -/
theorem tested_before (hs : (s.fields.map (·.name)).Nodup) {i k : Nat} {f t : Field}
    (hf : s.fields[i]? = some f) (hconst : f.isConst = false) {c : Condition}
    (hc : f.condition = some c) (hunion : s.unionOf? f.name = none) (ht : s.fields[k]? = some t)
    (hname : t.name = c.field) (htc : t.condition = none) : k < i := by
  by_contra hlt
  have hne : i ≠ k := by
    rintro rfl
    rw [hf] at ht
    cases ht
    rw [hc] at htc
    cases htc
  have hmem : f.name ∈ (s.groupOf c.field).members :=
    mem_members_groupOf.mpr
      (mem_conditioned.mpr ⟨f, List.mem_of_getElem? hf, hconst, rfl, c, hc, rfl⟩)
  -- the first member of the group comes before the tested field, so the group is a union
  cases hmembers : (s.groupOf c.field).members with
  | nil => rw [hmembers] at hmem; cases hmem
  | cons first rest =>
    have hsub := hmembers ▸ s.members_sublist c.field
    obtain ⟨p, hp⟩ := List.mem_iff_getElem?.mp (hsub.subset (List.mem_cons_self (a := first)))
    have hpi : p ≤ i := index_le_of_sublist hsub (hmembers ▸ hmem) hs hp (by simp [hf])
    obtain ⟨g, hg, hgname⟩ := Option.map_eq_some_iff.mp (List.getElem?_map ▸ hp)
    have hposFirst := position?_of_getElem? hs hg
    have hposTested := position?_of_getElem? hs ht
    rw [hgname] at hposFirst
    rw [hname] at hposTested
    have hlayout : (s.groupOf c.field).isUnion = true := by
      have : (s.groupOf c.field).layout = .union := by
        unfold groupOf at hmembers ⊢
        simp only at hmembers ⊢
        rw [hmembers]
        simp only [groupLayout, hposTested, hposFirst]
        rw [if_pos (by omega)]
      simp [ConditionGroup.isUnion, this]
    have := (unionOf?_eq_some_iff hs (List.mem_of_getElem? hf)).mpr ⟨hconst, c, hc, rfl, hlayout⟩
    rw [hunion] at this
    cases this

end WireLayout.Struct
