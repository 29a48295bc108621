import Mathlib.Logic.Function.Iterate
import WireLayout.Proofs.Embedding

/-!
# Members that are reached through inline fields

A member of a struct is looked for depth first: in the struct itself, then through its inline fields
in the order of their declaration, never through a struct that is being searched already. Inline
fields may lead in circles; the search ends all the same, as it enters a struct at most once on any
way. What it returns is the first of all the ways that lead to a struct which declares the member
and pass through no struct twice. It misses none: where a struct that declares the member can be
reached at all, a way there that comes back to a struct can be cut short.
-/

namespace WireLayout

open Relation

namespace Schema

/-! ## Ways to a member -/

/-- Whether a struct has the other as the type of an inline field. -/
def Inlines (schema : Schema) (s t : Struct) : Prop :=
  ∃ f ∈ s.fields, f.disposition = .inline ∧ schema.struct? f.typeName = some t

/-- Whether these are the owners and fields on a way from a struct to a member, through inline
fields and no struct twice. -/
structure MemberRoute (schema : Schema) (s : Struct) (member : String)
    (route : List (Struct × Field)) : Prop where
  starts : (route.head?.map (·.1)) = some s
  owned : ∀ p ∈ route, p.2 ∈ p.1.fields
  /-- Each field but the last is inline, and its type owns the next. -/
  hops : route.IsChain fun p q => p.2.disposition = .inline ∧ schema.struct? p.2.typeName = some q.1
  ends : (route.getLast?.map (·.2.name)) = some member
  /-- No owner before the last declares the member. -/
  missing : ∀ p ∈ route.dropLast, p.1.field? member = none
  simple : (route.map (·.1.name)).Nodup

/-- Whether a way comes before another in the order of a depth-first search: where they part, its
field is declared first. -/
def Earlier (route route' : List (Struct × Field)) : Prop :=
  ∃ common s f g rest rest', route = common ++ (s, f) :: rest ∧ route' = common ++ (s, g) :: rest' ∧
    [f, g].Sublist s.fields

/-- Whether this is the first of the ways to a member. -/
structure FirstRoute (schema : Schema) (s : Struct) (member : String)
    (route : List (Struct × Field)) : Prop extends schema.MemberRoute s member route where
  first : ∀ route', schema.MemberRoute s member route' → route' = route ∨ Earlier route route'

/-- One call of the search for a member, where `inner` answers the calls that it makes. -/
def searchMember (schema : Schema) (member : String)
    (inner : List String → String → Option (List String)) (seen : List String) (name : String) :
    Option (List String) :=
  (schema.struct? name).bind fun s =>
    if (s.field? member).isSome then some [member]
    else if seen.contains name then none
    else
      (s.fields.filter fun f => f.disposition == .inline).findSome? fun f =>
        (inner (name :: seen) f.typeName).map (f.name :: ·)

variable {schema : Schema} {s t : Struct} {member name : String} {seen : List String}

/-! ## One call -/

section Calls

variable {inner : List String → String → Option (List String)}

theorem searchMember_of_declares (hs : schema.struct? name = some s)
    (hdeclares : (s.field? member).isSome = true) :
    schema.searchMember member inner seen name = some [member] := by
  unfold searchMember
  rw [hs, Option.bind_some, if_pos hdeclares]

theorem searchMember_of_mem (hs : schema.struct? name = some s) (hmissing : s.field? member = none)
    (hseen : name ∈ seen) : schema.searchMember member inner seen name = none := by
  unfold searchMember
  rw [hs, Option.bind_some, hmissing, if_neg (by simp), if_pos (List.contains_iff_mem.mpr hseen)]

theorem searchMember_of_not_mem (hs : schema.struct? name = some s)
    (hmissing : s.field? member = none) (hnew : name ∉ seen) :
    schema.searchMember member inner seen name =
      (s.fields.filter fun f => f.disposition == .inline).findSome? fun f =>
        (inner (name :: seen) f.typeName).map (f.name :: ·) := by
  unfold searchMember
  rw [hs, Option.bind_some, hmissing, if_neg (by simp),
    if_neg fun hseen => hnew (List.contains_iff_mem.mp hseen)]

end Calls

theorem memberPathFrom?_succ (depth : Nat) :
    schema.memberPathFrom? member (depth + 1) seen name =
      schema.searchMember member (schema.memberPathFrom? member depth) seen name :=
  rfl

/-! ## The end of the search -/

theorem memberPathFrom?_eq_iterate (member : String) (depth : Nat) :
    schema.memberPathFrom? member depth =
      (schema.searchMember member)^[depth] fun _ _ => none := by
  induction depth with
  | zero => rfl
  | succ depth ih =>
    rw [Function.iterate_succ_apply', ← ih]
    funext seen name
    exact memberPathFrom?_succ depth

/-- A call asks only below a struct that is not being searched, and marks it. -/
theorem searchMember_congr {inner inner' : List String → String → Option (List String)}
    (h : schema.hasStruct name = true → name ∉ seen → ∀ ty,
      inner (name :: seen) ty = inner' (name :: seen) ty) :
    schema.searchMember member inner seen name = schema.searchMember member inner' seen name := by
  unfold searchMember
  cases hs : schema.struct? name with
  | none => rfl
  | some s =>
    simp only [Option.bind_some]
    by_cases hseen : name ∈ seen
    · rw [List.contains_iff_mem.mpr hseen]
      rfl
    · simp only [h (Option.isSome_iff_exists.mpr ⟨s, hs⟩) hseen]

/-- Calls that are nested deeper than there are structs left to enter are not made. -/
theorem iterate_searchMember_eq {depth : Nat} (hdepth : (schema.unseen seen).card < depth)
    (base base' : List String → String → Option (List String)) :
    (schema.searchMember member)^[depth] base seen name =
      (schema.searchMember member)^[depth] base' seen name := by
  induction depth generalizing seen name with
  | zero => exact absurd hdepth (Nat.not_lt_zero _)
  | succ depth ih =>
    rw [Function.iterate_succ_apply', Function.iterate_succ_apply']
    refine searchMember_congr fun hname hnew ty => ?_
    have hlt := card_unseen_cons_lt hname hnew
    exact ih (by omega)

/-! ## Ways, one field at a time -/

section Routes

variable {p q : Struct × Field} {rest : List (Struct × Field)}

theorem memberRoute_singleton :
    schema.MemberRoute s member [p] ↔ p.1 = s ∧ p.2 ∈ p.1.fields ∧ p.2.name = member := by
  constructor
  · intro h
    exact ⟨by simpa using h.starts, h.owned p (by simp), by simpa using h.ends⟩
  · rintro ⟨rfl, howned, rfl⟩
    constructor
    case starts => rfl
    case owned => exact List.forall_mem_singleton.mpr howned
    case hops => exact List.isChain_singleton _
    case ends => rfl
    case missing => exact fun p hp => absurd hp List.not_mem_nil
    case simple => exact List.nodup_singleton _

theorem memberRoute_cons_cons :
    schema.MemberRoute s member (p :: q :: rest) ↔
      p.1 = s ∧ p.2 ∈ s.fields ∧ p.2.disposition = .inline ∧ s.field? member = none ∧
        schema.struct? p.2.typeName = some q.1 ∧ (∀ r ∈ q :: rest, r.1.name ≠ s.name) ∧
        schema.MemberRoute q.1 member (q :: rest) := by
  constructor
  · intro h
    obtain rfl : p.1 = s := by simpa using h.starts
    obtain ⟨⟨hinline, htype⟩, hhops⟩ := List.isChain_cons_cons.mp h.hops
    obtain ⟨hnew, hsimple⟩ := List.nodup_cons.mp h.simple
    have hmissing := h.missing
    rw [List.dropLast_cons_of_ne_nil (by simp)] at hmissing
    obtain ⟨hfirst, hmissing⟩ := List.forall_mem_cons.mp hmissing
    refine ⟨rfl, h.owned p (by simp), hinline, hfirst, htype, ?_, ?_⟩
    · rintro r hr hname
      exact hnew (List.mem_map.mpr ⟨r, hr, hname⟩)
    · exact ⟨rfl, fun r hr => h.owned r (List.mem_cons_of_mem _ hr), hhops, by simpa using h.ends,
        hmissing, hsimple⟩
  · rintro ⟨rfl, howned, hinline, hfirst, htype, hnew, h⟩
    constructor
    case starts => rfl
    case owned => exact List.forall_mem_cons.mpr ⟨howned, h.owned⟩
    case hops => exact List.isChain_cons_cons.mpr ⟨⟨hinline, htype⟩, h.hops⟩
    case ends => simpa using h.ends
    case missing =>
      rw [List.dropLast_cons_of_ne_nil (by simp)]
      exact List.forall_mem_cons.mpr ⟨hfirst, h.missing⟩
    case simple =>
      refine List.nodup_cons.mpr ⟨fun hmem => ?_, h.simple⟩
      obtain ⟨r, hr, hname⟩ := List.mem_map.mp hmem
      exact hnew r hr hname

/-- A way that starts at a struct which declares the member ends there. -/
theorem MemberRoute.eq_singleton (hnames : (s.fields.map (·.name)).Nodup) {f : Field}
    (hf : s.field? member = some f) {route : List (Struct × Field)}
    (h : schema.MemberRoute s member route) : route = [(s, f)] := by
  match route with
  | [] => cases h.starts
  | [p] =>
    obtain ⟨rfl, howned, rfl⟩ := memberRoute_singleton.mp h
    rw [Struct.field?_of_mem hnames howned] at hf
    rw [← Option.some.inj hf]
  | p :: q :: rest =>
    obtain ⟨-, -, -, hmissing, -⟩ := memberRoute_cons_cons.mp h
    rw [hf] at hmissing
    cases hmissing

/-- The rest of a way is a way from where it starts. -/
theorem MemberRoute.suffix {front : List (Struct × Field)}
    (h : schema.MemberRoute s member (front ++ p :: rest)) :
    schema.MemberRoute p.1 member (p :: rest) := by
  induction front generalizing s with
  | nil =>
    obtain rfl : p.1 = s := by simpa using h.starts
    exact h
  | cons r front ih =>
    cases front with
    | nil => exact (memberRoute_cons_cons.mp h).2.2.2.2.2.2
    | cons q front => exact ih (memberRoute_cons_cons.mp h).2.2.2.2.2.2

/-- The owners on a way are structs of the schema. -/
theorem MemberRoute.struct?_owner {route : List (Struct × Field)}
    (h : schema.MemberRoute s member route) (hs : schema.struct? s.name = some s) :
    ∀ r ∈ route, schema.struct? r.1.name = some r.1 := by
  induction route generalizing s with
  | nil => cases h.starts
  | cons p route ih =>
    obtain rfl : p.1 = s := by simpa using h.starts
    refine List.forall_mem_cons.mpr ⟨hs, ?_⟩
    cases route with
    | nil => exact fun r hr => absurd hr List.not_mem_nil
    | cons q rest =>
      obtain ⟨-, -, -, -, htype, -, hrest⟩ := memberRoute_cons_cons.mp h
      have hq : schema.struct? q.1.name = some q.1 := by
        rw [(mem_of_struct? htype).2]
        exact htype
      exact ih hrest hq

end Routes

/-! ## Ways and reachable structs -/

/-- A way leads to a struct that declares the member. -/
theorem MemberRoute.reaches {route : List (Struct × Field)} (h : schema.MemberRoute s member route)
    (hfields : ∀ p ∈ route, (p.1.fields.map (·.name)).Nodup) :
    ∃ t, ReflTransGen schema.Inlines s t ∧ (t.field? member).isSome = true := by
  induction route generalizing s with
  | nil => cases h.starts
  | cons p route ih =>
    cases route with
    | nil =>
      obtain ⟨rfl, howned, rfl⟩ := memberRoute_singleton.mp h
      have hf := Struct.field?_of_mem (hfields p (by simp)) howned
      exact ⟨p.1, .refl, Option.isSome_iff_exists.mpr ⟨_, hf⟩⟩
    | cons q rest =>
      obtain ⟨rfl, howned, hinline, -, htype, -, hrest⟩ := memberRoute_cons_cons.mp h
      obtain ⟨t, hreach, hdeclares⟩ := ih hrest fun r hr => hfields r (List.mem_cons_of_mem _ hr)
      exact ⟨t, .head ⟨p.2, howned, hinline, htype⟩ hreach, hdeclares⟩

/-- Before a way to the member goes a struct that embeds where it starts. If the struct declares the
member or is on the way already, the way is cut short there. -/
theorem exists_memberRoute_of_inlines {s' : Struct} (hs : schema.struct? s.name = some s)
    (hs' : schema.struct? s'.name = some s') (hinlines : schema.Inlines s s')
    {route : List (Struct × Field)} (h : schema.MemberRoute s' member route) :
    ∃ route', schema.MemberRoute s member route' := by
  cases hmissing : s.field? member with
  | some f =>
    obtain ⟨hf, hname⟩ := Struct.mem_of_field? hmissing
    exact ⟨[(s, f)], memberRoute_singleton.mpr ⟨rfl, hf, hname⟩⟩
  | none =>
    by_cases hon : ∃ p ∈ route, p.1.name = s.name
    · obtain ⟨p, hp, hname⟩ := hon
      obtain rfl : p.1 = s := by
        have howner := h.struct?_owner hs' p hp
        rw [hname, hs] at howner
        exact (Option.some.inj howner).symm
      obtain ⟨front, rest, rfl⟩ := List.append_of_mem hp
      exact ⟨p :: rest, h.suffix⟩
    · obtain ⟨f, hf, hinline, htype⟩ := hinlines
      cases route with
      | nil => cases h.starts
      | cons q rest =>
        obtain rfl : q.1 = s' := by simpa using h.starts
        have hother : ∀ r ∈ q :: rest, r.1.name ≠ s.name := fun r hr hname => hon ⟨r, hr, hname⟩
        exact ⟨(s, f) :: q :: rest,
          memberRoute_cons_cons.mpr ⟨rfl, hf, hinline, hmissing, htype, hother, h⟩⟩

/-- A struct that declares the member and can be reached is reached without passing a struct twice.
-/
theorem exists_memberRoute (hs : schema.struct? s.name = some s)
    (hreach : ReflTransGen schema.Inlines s t) (hdeclares : (t.field? member).isSome = true) :
    ∃ route, schema.MemberRoute s member route := by
  revert hs
  induction hreach using ReflTransGen.head_induction_on with
  | refl =>
    intro _
    obtain ⟨f, hfield⟩ := Option.isSome_iff_exists.mp hdeclares
    obtain ⟨hf, hname⟩ := Struct.mem_of_field? hfield
    exact ⟨[(t, f)], memberRoute_singleton.mpr ⟨rfl, hf, hname⟩⟩
  | @head s s' hinlines _ ih =>
    intro hs
    have hs' : schema.struct? s'.name = some s' := by
      obtain ⟨f, -, -, htype⟩ := hinlines
      rw [(mem_of_struct? htype).2]
      exact htype
    obtain ⟨route, hroute⟩ := ih hs'
    exact exists_memberRoute_of_inlines hs hs' hinlines hroute

/-! ## What the search finds -/

/-- Whether a way avoids the structs of a list of names. -/
def Avoids (seen : List String) (route : List (Struct × Field)) : Prop :=
  ∀ p ∈ route, p.1.name ∉ seen

theorem avoids_cons {route : List (Struct × Field)} :
    Avoids (name :: seen) route ↔ (∀ p ∈ route, p.1.name ≠ name) ∧ Avoids seen route := by
  unfold Avoids
  simp only [List.mem_cons, not_or]
  exact ⟨fun h => ⟨fun p hp => (h p hp).1, fun p hp => (h p hp).2⟩,
    fun h p hp => ⟨h.1 p hp, h.2 p hp⟩⟩

/-- Whether this is the first of the ways to a member that avoid the structs of a list of names. -/
structure FirstAvoiding (schema : Schema) (seen : List String) (s : Struct) (member : String)
    (route : List (Struct × Field)) : Prop extends schema.MemberRoute s member route where
  avoids : Avoids seen route
  first : ∀ route', schema.MemberRoute s member route' → Avoids seen route' →
    route' = route ∨ Earlier route route'

/-- The search finds something if there is a way that avoids the structs being searched. -/
theorem isSome_memberPathFrom? {depth : Nat} (hdepth : (schema.unseen seen).card < depth)
    (hs : schema.struct? name = some s)
    (hfields : ∀ s ∈ schema.structs, (s.fields.map (·.name)).Nodup)
    {route : List (Struct × Field)} (h : schema.MemberRoute s member route)
    (havoids : Avoids seen route) :
    (schema.memberPathFrom? member depth seen name).isSome = true := by
  induction depth generalizing seen name s route with
  | zero => exact absurd hdepth (Nat.not_lt_zero _)
  | succ depth ih =>
    obtain ⟨hmem, rfl⟩ := mem_of_struct? hs
    rw [memberPathFrom?_succ]
    match route with
    | [] => cases h.starts
    | [p] =>
      obtain ⟨rfl, howned, rfl⟩ := memberRoute_singleton.mp h
      have hf := Struct.field?_of_mem (hfields _ hmem) howned
      rw [searchMember_of_declares hs (Option.isSome_iff_exists.mpr ⟨_, hf⟩)]
      rfl
    | p :: q :: rest =>
      obtain ⟨rfl, howned, hinline, hmissing, htype, hother, hrest⟩ := memberRoute_cons_cons.mp h
      obtain ⟨hnew, havoids⟩ := List.forall_mem_cons.mp havoids
      rw [searchMember_of_not_mem hs hmissing hnew, List.findSome?_isSome_iff]
      refine ⟨p.2, List.mem_filter.mpr ⟨howned, by rw [hinline]; rfl⟩, ?_⟩
      rw [Option.isSome_map]
      have hlt := card_unseen_cons_lt (Option.isSome_iff_exists.mpr ⟨_, hs⟩) hnew
      exact ih (by omega) htype hrest (avoids_cons.mpr ⟨hother, havoids⟩)

/-- A way that starts with another field of the struct, which is no earlier one, comes later. -/
theorem earlier_of_mem_append {f g : Field} {before after : List Field}
    (hsplit : (s.fields.filter fun f => f.disposition == .inline) = before ++ f :: after)
    (hg : g ∈ after) (rest rest' : List (Struct × Field)) :
    Earlier ((s, f) :: rest) ((s, g) :: rest') := by
  refine ⟨[], s, f, g, rest, rest', rfl, rfl, ?_⟩
  have hlater : [f, g].Sublist (before ++ f :: after) :=
    List.Sublist.trans (List.Sublist.cons_cons f (List.singleton_sublist.mpr hg))
      (List.sublist_append_right before (f :: after))
  rw [← hsplit] at hlater
  exact hlater.trans List.filter_sublist

theorem Earlier.cons {route route' : List (Struct × Field)} (p : Struct × Field)
    (h : Earlier route route') : Earlier (p :: route) (p :: route') := by
  obtain ⟨common, s, f, g, rest, rest', rfl, rfl, hlater⟩ := h
  exact ⟨p :: common, s, f, g, rest, rest', rfl, rfl, hlater⟩

/-- The first way below the first inline field below which there is one is the first of all, if the
struct itself does not declare the member. -/
theorem FirstAvoiding.cons {f : Field} {before after : List Field} {route : List (Struct × Field)}
    (hnames : (s.fields.map (·.name)).Nodup) (hmissing : s.field? member = none)
    (hnew : s.name ∉ seen)
    (hsplit : (s.fields.filter fun f => f.disposition == .inline) = before ++ f :: after)
    (hbefore : ∀ g ∈ before, ∀ t' route', schema.struct? g.typeName = some t' →
      schema.MemberRoute t' member route' → ¬ Avoids (s.name :: seen) route')
    (htype : schema.struct? f.typeName = some t)
    (h : schema.FirstAvoiding (s.name :: seen) t member route) :
    schema.FirstAvoiding seen s member ((s, f) :: route) := by
  obtain ⟨hf, hinline⟩ : f ∈ s.fields ∧ f.disposition = .inline := by
    have hmem : f ∈ s.fields.filter fun f => f.disposition == .inline := by
      rw [hsplit]
      simp
    obtain ⟨hf, hdisposition⟩ := List.mem_filter.mp hmem
    exact ⟨hf, eq_of_beq hdisposition⟩
  obtain ⟨hother, havoids⟩ := avoids_cons.mp h.avoids
  match route with
  | [] => cases h.starts
  | q :: rest =>
    obtain rfl : q.1 = t := by simpa using h.starts
    constructor
    case toMemberRoute =>
      exact memberRoute_cons_cons.mpr ⟨rfl, hf, hinline, hmissing, htype, hother, h.toMemberRoute⟩
    case avoids => exact List.forall_mem_cons.mpr ⟨hnew, havoids⟩
    case first =>
      intro route' hroute' havoids'
      match route' with
      | [] => cases hroute'.starts
      | [p] =>
        obtain ⟨rfl, howned, rfl⟩ := memberRoute_singleton.mp hroute'
        rw [Struct.field?_of_mem hnames howned] at hmissing
        cases hmissing
      | (s', g) :: q' :: rest' =>
        obtain ⟨rfl, hg, hginline, -, hgtype, hother', hrest'⟩ := memberRoute_cons_cons.mp hroute'
        have hin := avoids_cons.mpr ⟨hother', (List.forall_mem_cons.mp havoids').2⟩
        have hmem : g ∈ before ++ f :: after := by
          rw [← hsplit]
          exact List.mem_filter.mpr ⟨hg, by rw [hginline]; rfl⟩
        rcases List.mem_append.mp hmem with hmem | hmem
        · exact absurd hin (hbefore g hmem _ _ hgtype hrest')
        · rcases List.mem_cons.mp hmem with rfl | hmem
          · have howner : q'.1 = q.1 := Option.some.inj (hgtype.symm.trans htype)
            rw [howner] at hrest'
            rcases h.first _ hrest' hin with heq | hearlier
            · exact .inl (congrArg _ heq)
            · exact .inr (hearlier.cons _)
          · exact .inr (earlier_of_mem_append hsplit hmem _ _)

theorem exists_struct?_of_memberPathFrom? {depth : Nat} {path : List String}
    (h : schema.memberPathFrom? member depth seen name = some path) :
    ∃ s, schema.struct? name = some s := by
  cases depth with
  | zero => cases h
  | succ depth =>
    obtain ⟨s, hs, -⟩ := Option.bind_eq_some_iff.mp h
    exact ⟨s, hs⟩

/-- What the search finds is the first of the ways that avoid the structs being searched. None of
these declares the member, or the search would have ended there. -/
theorem first_of_memberPathFrom? {depth : Nat} {path : List String}
    (hdepth : (schema.unseen seen).card < depth) (hs : schema.struct? name = some s)
    (hfields : ∀ s ∈ schema.structs, (s.fields.map (·.name)).Nodup)
    (hseen : ∀ x ∈ seen, ∀ t, schema.struct? x = some t → t.field? member = none)
    (h : schema.memberPathFrom? member depth seen name = some path) :
    ∃ route, schema.FirstAvoiding seen s member route ∧ route.map (·.2.name) = path := by
  induction depth generalizing seen name s path with
  | zero => exact absurd hdepth (Nat.not_lt_zero _)
  | succ depth ih =>
    obtain ⟨hmem, rfl⟩ := mem_of_struct? hs
    rw [memberPathFrom?_succ] at h
    cases hfield : s.field? member with
    | some f =>
      rw [searchMember_of_declares hs (Option.isSome_iff_exists.mpr ⟨_, hfield⟩)] at h
      obtain rfl := Option.some.inj h
      obtain ⟨hf, hname⟩ := Struct.mem_of_field? hfield
      have hnew : s.name ∉ seen := by
        intro hin
        rw [hseen _ hin s hs] at hfield
        cases hfield
      refine ⟨[(s, f)], ⟨memberRoute_singleton.mpr ⟨rfl, hf, hname⟩,
        List.forall_mem_singleton.mpr hnew, ?_⟩, congrArg (fun n => [n]) hname⟩
      exact fun route' hroute' _ => .inl (hroute'.eq_singleton (hfields s hmem) hfield)
    | none =>
      by_cases hin : s.name ∈ seen
      · rw [searchMember_of_mem hs hfield hin] at h
        cases h
      · rw [searchMember_of_not_mem hs hfield hin, List.findSome?_eq_some_iff] at h
        obtain ⟨before, f, after, hsplit, hfound, hbefore⟩ := h
        obtain ⟨inside, hinside, rfl⟩ := Option.map_eq_some_iff.mp hfound
        have hlt := card_unseen_cons_lt (Option.isSome_iff_exists.mpr ⟨s, hs⟩) hin
        have hdepth : (schema.unseen (s.name :: seen)).card < depth := by omega
        have hmissing : ∀ x ∈ s.name :: seen, ∀ t, schema.struct? x = some t →
            t.field? member = none := by
          refine List.forall_mem_cons.mpr ⟨fun t ht => ?_, hseen⟩
          obtain rfl := Option.some.inj (hs.symm.trans ht)
          exact hfield
        obtain ⟨t, ht⟩ := exists_struct?_of_memberPathFrom? hinside
        obtain ⟨route, hroute, rfl⟩ := ih hdepth ht hmissing hinside
        refine ⟨(s, f) :: route, hroute.cons (hfields s hmem) hfield hin hsplit ?_ ht, rfl⟩
        -- the search below an earlier field found nothing, so there is no way there
        intro g hg t' route' hgtype hroute' havoids
        have hsome := isSome_memberPathFrom? hdepth hgtype hfields hroute' havoids
        rw [Option.map_eq_none_iff.mp (hbefore g hg)] at hsome
        cases hsome

/-! ## The field at the end -/

/-- Following the names of a way from its start leads to its last field. -/
theorem MemberRoute.fieldAt? {route : List (Struct × Field)} (h : schema.MemberRoute s member route)
    (hs : s ∈ schema.structs) (hfields : ∀ s ∈ schema.structs, (s.fields.map (·.name)).Nodup) :
    schema.fieldAt? s (route.map (·.2.name)) = route.getLast?.map (·.2) := by
  induction route generalizing s with
  | nil => rfl
  | cons p route ih =>
    cases route with
    | nil =>
      obtain ⟨rfl, howned, -⟩ := memberRoute_singleton.mp h
      exact Struct.field?_of_mem (hfields _ hs) howned
    | cons q rest =>
      obtain ⟨rfl, howned, -, -, htype, -, hrest⟩ := memberRoute_cons_cons.mp h
      have hstep : schema.fieldAt? p.1 ((p :: q :: rest).map (·.2.name)) =
          ((p.1.field? p.2.name).bind fun f => schema.struct? f.typeName).bind
            (schema.fieldAt? · ((q :: rest).map (·.2.name))) := rfl
      rw [hstep, Struct.field?_of_mem (hfields _ hs) howned, Option.bind_some, htype,
        Option.bind_some, ih hrest (mem_of_struct? htype).1, List.getLast?_cons_cons]

/-! ## The answers -/

/-- A search with nothing marked goes as deep as there are structs. -/
theorem card_unseen_nil_lt (schema : Schema) :
    (schema.unseen []).card < schema.structs.length + 1 :=
  Nat.lt_succ_of_le (card_unseen_le [])

theorem firstRoute_of_memberPath? {path : List String} (hs : schema.struct? name = some s)
    (hfields : ∀ s ∈ schema.structs, (s.fields.map (·.name)).Nodup)
    (h : schema.memberPath? name member = some path) :
    ∃ route, schema.FirstRoute s member route ∧ route.map (·.2.name) = path := by
  obtain ⟨route, hroute, hpath⟩ := first_of_memberPathFrom? schema.card_unseen_nil_lt hs hfields
    (fun x hx => absurd hx List.not_mem_nil) h
  refine ⟨route, ⟨hroute.toMemberRoute, fun route' hroute' => ?_⟩, hpath⟩
  exact hroute.first route' hroute' fun p _ => List.not_mem_nil

theorem isSome_memberPath?_iff (hs : schema.struct? s.name = some s)
    (hfields : ∀ s ∈ schema.structs, (s.fields.map (·.name)).Nodup) :
    (schema.memberPath? s.name member).isSome = true ↔
      ∃ t, ReflTransGen schema.Inlines s t ∧ (t.field? member).isSome = true := by
  constructor
  · intro h
    obtain ⟨path, hpath⟩ := Option.isSome_iff_exists.mp h
    obtain ⟨route, hroute, -⟩ := firstRoute_of_memberPath? hs hfields hpath
    refine hroute.reaches fun p hp => hfields p.1 ?_
    exact (mem_of_struct? (hroute.struct?_owner hs p hp)).1
  · rintro ⟨t, hreach, hdeclares⟩
    obtain ⟨route, hroute⟩ := exists_memberRoute hs hreach hdeclares
    exact isSome_memberPathFrom? schema.card_unseen_nil_lt hs hfields hroute
      fun p _ => List.not_mem_nil

theorem member?_of_memberPath? {path : List String} (hs : schema.struct? s.name = some s)
    (hfields : ∀ s ∈ schema.structs, (s.fields.map (·.name)).Nodup)
    (h : schema.memberPath? s.name member = some path) :
    ∃ route, schema.FirstRoute s member route ∧ route.map (·.2.name) = path ∧
      schema.member? s.name member = route.getLast?.map (·.2) := by
  obtain ⟨route, hroute, rfl⟩ := firstRoute_of_memberPath? hs hfields h
  refine ⟨route, hroute, rfl, ?_⟩
  unfold member?
  rw [h, Option.bind_some, hs, Option.bind_some]
  exact hroute.fieldAt? (mem_of_struct? hs).1 hfields

end Schema

/-- Looking up a member of a struct ends whatever circles the inline fields lead in: calls that are
nested deeper than the structs are many are never made. It finds a path exactly if a struct that
declares the member can be reached through inline fields. The path then is that of the first way
there, in the order in which a depth-first search through the fields as declared comes upon them,
and the member is the field at its end. -/
theorem member_lookup {options : Options} {decls : List Declaration} {schema : Schema}
    (h : Schema.ofDeclarations options decls = .ok schema) {s : Struct} (hs : s ∈ schema.structs)
    (member : String) :
    (∀ base, (schema.searchMember member)^[schema.structs.length + 1] base [] s.name =
      schema.memberPath? s.name member) ∧
    ((schema.memberPath? s.name member).isSome = true ↔
      ∃ t, ReflTransGen schema.Inlines s t ∧ (t.field? member).isSome = true) ∧
    (∀ path, schema.memberPath? s.name member = some path →
      ∃ route f, schema.FirstRoute s member route ∧ route.map (·.2.name) = path ∧
        route.getLast?.map (·.2) = some f ∧ schema.member? s.name member = some f) ∧
    (schema.memberPath? s.name member = none → schema.member? s.name member = none) := by
  have hnames := Schema.nodup_of_ofDeclarations h
  have hs : schema.struct? s.name = some s := (Schema.struct?_eq_some hnames).mpr ⟨hs, rfl⟩
  have hfields : ∀ s ∈ schema.structs, (s.fields.map (·.name)).Nodup :=
    fun s hs => ((Schema.built_of_ofDeclarations h).wellFormed s hs).names
  refine ⟨?_, Schema.isSome_memberPath?_iff hs hfields, ?_, ?_⟩
  · intro base
    unfold Schema.memberPath?
    rw [Schema.memberPathFrom?_eq_iterate]
    exact Schema.iterate_searchMember_eq schema.card_unseen_nil_lt base _
  · intro path hpath
    obtain ⟨route, hroute, hmap, hmember⟩ := Schema.member?_of_memberPath? hs hfields hpath
    obtain ⟨p, hp, -⟩ := Option.map_eq_some_iff.mp hroute.ends
    refine ⟨route, p.2, hroute, hmap, by rw [hp]; rfl, ?_⟩
    rw [hmember, hp]
    rfl
  · intro hnone
    unfold Schema.member?
    rw [hnone]
    rfl

/-- Two structs whose inline fields lead in a circle, and two that declare a member. -/
def circularDeclarations : List Declaration :=
  [ .struct { name := "Ring", comment := none, disposition := none
              fields := [ { name := some "link", typeName := some "Link",
                            disposition := some "inline" } ] },
    .struct { name := "Link", comment := none, disposition := none
              fields := [ { name := some "ring", typeName := some "Ring",
                            disposition := some "inline" },
                          { name := some "left", typeName := some "Left",
                            disposition := some "inline" },
                          { name := some "right", typeName := some "Right",
                            disposition := some "inline" } ] },
    .struct { name := "Left", comment := none, disposition := none
              fields := [{ name := some "kind", typeName := some "uint8" }] },
    .struct { name := "Right", comment := none, disposition := none
              fields := [{ name := some "kind", typeName := some "uint16" }] } ]

/-- The member that both declare is found in the first, and one that none declares is not found. -/
theorem member_lookup_circular :
    ∃ schema s, Schema.ofDeclarations {} circularDeclarations = .ok schema ∧ s ∈ schema.structs ∧
      s.name = "Ring" ∧
      (∃ route, schema.FirstRoute s "kind" route ∧
        route.map (·.2.name) = ["link", "left", "kind"] ∧
        route.getLast?.map (·.2.typeName) = some "uint8") ∧
      ¬ ∃ t, ReflTransGen schema.Inlines s t ∧ (t.field? "size").isSome = true := by
  obtain ⟨schema, hschema, hnames, hkind, htype, hsize⟩ : ∃ schema,
      Schema.ofDeclarations {} circularDeclarations = .ok schema ∧
        schema.structs.map (·.name) = ["Ring", "Link", "Left", "Right"] ∧
        schema.memberPath? "Ring" "kind" = some ["link", "left", "kind"] ∧
        (schema.member? "Ring" "kind").map (·.typeName) = some "uint8" ∧
        schema.memberPath? "Ring" "size" = none :=
    exists_ok_of_toOption (by decide +kernel)
  obtain ⟨s, hs, hname⟩ : ∃ s ∈ schema.structs, s.name = "Ring" := by
    rw [← List.mem_map, hnames]
    decide
  refine ⟨schema, s, hschema, hs, hname, ?_, ?_⟩
  · obtain ⟨-, -, hfound, -⟩ := member_lookup hschema hs "kind"
    rw [hname] at hfound
    obtain ⟨route, f, hroute, hpath, hlast, hmember⟩ := hfound _ hkind
    rw [hmember, Option.map_some] at htype
    obtain ⟨p, hp, rfl⟩ := Option.map_eq_some_iff.mp hlast
    refine ⟨route, hroute, hpath, ?_⟩
    rw [hp]
    exact htype
  · obtain ⟨-, hreached, -, -⟩ := member_lookup hschema hs "size"
    rw [hname, hsize] at hreached
    intro h
    cases hreached.mpr h

end WireLayout
