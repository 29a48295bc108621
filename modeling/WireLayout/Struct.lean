import WireLayout.Field
import WireLayout.Ordered

/-!
# Structs

A struct is its fields in wire order and what identifies it among the structs of its group. Which
fields only count an array's elements, and which conditioned fields belong together, is read off the
fields.

Conditioned fields that test one field form a group. If a reader meets the first of them before the
tested field, it cannot know which is present: such a group is a union, whose members share one
slot.
-/

namespace WireLayout

/-- Whether a struct stands for messages of its own. -/
inductive StructKind where
  /-- It does. -/
  | normal
  /-- It is only a part of others. -/
  | abstract
  deriving DecidableEq

/-- What a discriminator says: a member of a group's enum. -/
structure Identity where
  /-- The enum of the group. -/
  group : String
  /-- The member's name. -/
  member : String
  /-- The member's value. -/
  value : Int
  deriving DecidableEq

/-- How the fields of a condition group lie on the wire. -/
inductive GroupLayout where
  /-- Each is present or absent by itself. -/
  | independent
  /-- They share one slot of fixed size. -/
  | union
  deriving DecidableEq

/-- The conditioned fields that test one field. -/
structure ConditionGroup where
  /-- The field they test. -/
  conditionField : String
  /-- Their names in order. -/
  members : List String
  /-- How they lie on the wire. -/
  layout : GroupLayout
  deriving DecidableEq

/-- Whether the group is a union. -/
def ConditionGroup.isUnion (g : ConditionGroup) : Bool := g.layout == .union

/-- A struct. -/
structure Struct where
  /-- Its name. -/
  name : String
  /-- Whether it stands for messages of its own. -/
  kind : StructKind
  /-- Its fields in wire order. -/
  fields : List Field
  /-- The group and discriminator that it declares. -/
  identity : Option Identity
  /-- Its version in the group. -/
  version : Option Nat
  /-- The header that it declares for its group. -/
  header : Option HeaderBinding
  /-- Documentation. -/
  comment : Option String
  deriving DecidableEq

namespace Struct

/-- The field of a name. -/
def field? (s : Struct) (name : String) : Option Field := s.fields.find? fun f => f.name == name

/-- The place of a field. -/
def position? (s : Struct) (name : String) : Option Nat :=
  s.fields.findIdx? fun f => f.name == name

/-- The arrays whose elements a field counts, in order. -/
def arraysCountedBy (s : Struct) (name : String) : List String :=
  (s.fields.filter fun f => f.countedBy? == some name).map (·.name)

/-- Whether a field only counts the elements of arrays. -/
def isCount (s : Struct) (name : String) : Bool := !(s.arraysCountedBy name).isEmpty

/-- The counting fields with the arrays they count, ordered by name. -/
def counts (s : Struct) : List (String × List String) :=
  Ordered.ofList Ordered.byName
    ((s.fields.filterMap Field.countedBy?).map fun name => (name, s.arraysCountedBy name))

/-- The arrays of polymorphic elements whose regions a field measures, in order, each with its
alignment. -/
def regionsMeasuredBy (s : Struct) (name : String) : List (String × Option Nat) :=
  s.fields.filterMap fun f =>
    match f.sizedArray? with
    | some layout => if layout.lengthField == name then some (f.name, layout.align) else none
    | none => none

/-- The header references of a struct with the places they stand in: its arrays of polymorphic
elements, then its discriminator entry. -/
def headerReferences (s : Struct) : List (String × HeaderBinding) :=
  (s.fields.filterMap fun f => f.sizedArray?.map fun layout => (f.name, layout.binding)) ++
    (s.header.map fun b => ("struct_type", b)).toList

/-- The fields that a condition group may hold, each with the field it tests. A constant is not on
the wire, so its condition does not count. -/
def conditioned (s : Struct) : List (String × String) :=
  s.fields.filterMap fun f =>
    if f.isConst then none else f.condition.map fun c => (f.name, c.field)

/-- The layout of the group that tests `tested` and starts with `first`. -/
def groupLayout (s : Struct) (tested first : String) : GroupLayout :=
  match s.position? tested, s.position? first with
  | some t, some p => if p < t then .union else .independent
  | _, _ => .independent

/-- The group of the fields that test `tested`. -/
def groupOf (s : Struct) (tested : String) : ConditionGroup :=
  let members := (s.conditioned.filter fun p => p.2 == tested).map (·.1)
  { conditionField := tested
    members
    layout :=
      match members with
      | first :: _ => s.groupLayout tested first
      | [] => .independent }

/-- The condition groups in the order of their first members. -/
def groups (s : Struct) : List ConditionGroup :=
  (s.conditioned.map (·.2)).eraseDups.map s.groupOf

/-- The union groups in the order of their first members. -/
def unions (s : Struct) : List ConditionGroup := s.groups.filter ConditionGroup.isUnion

/-- The union group that a field belongs to. -/
def unionOf? (s : Struct) (name : String) : Option ConditionGroup :=
  s.unions.find? fun g => g.members.contains name

end Struct

end WireLayout
