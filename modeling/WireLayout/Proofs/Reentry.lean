import WireLayout.Proofs.Nesting

/-!
# Structs that are entered again

No struct of a schema that compiles has itself as a part, through plain and inline fields. Through arrays
a struct may come back to itself: such an array can be empty, and where it is not, it ends with the
bytes, if each round takes some. So reading is only endless where a struct comes back to itself with no
byte taken for sure, and a message that leads to no such struct is read to an end.
-/

namespace WireLayout

open Relation

/-- Whether a struct leads to none in a message that comes back to itself before a byte was taken. -/
def Codec.Grounded (c : Codec) (name : String) : Prop :=
  ∀ other, ReflTransGen c.Refers name other → ¬ TransGen c.schema.EntersFirst other other

namespace Schema

/-- The number of structs that a struct leads to before a byte was taken. -/
noncomputable def firstRank (schema : Schema) (name : String) : Nat :=
  (leadsTo schema.EntersFirst (schema.structs.map (·.name)).toFinset name).card

theorem EntersFirst.hasStruct {schema : Schema} {owner name : String}
    (h : schema.EntersFirst owner name) : schema.hasStruct owner = true := by
  obtain ⟨s, hs, -⟩ := h
  exact Option.isSome_iff_exists.mpr ⟨s, hs⟩

end Schema

namespace Codec

variable {c : Codec}

theorem Grounded.ranked {name : String} (h : c.Grounded name) :
    c.Ranked (ReflTransGen c.Refers name) c.schema.firstRank where
  closed _ _ hroot hrefers := hroot.tail hrefers
  falls owner other hroot hfirst := by
    obtain ⟨-, -, hother, -⟩ := id hfirst
    have hcycle := h other (hroot.tail hfirst.enters.refers)
    exact card_leadsTo_lt hcycle (Schema.mem_names_of_hasStruct hother) hfirst
  below owner hroot hpos :=
    Schema.card_leadsTo_lt_length (fun _ _ hfirst => hfirst.hasStruct) (h owner hroot) hpos

/-- Structs of which each has a height that is greater than those of the structs that it enters, unless
it enters them behind a field that takes a byte and is no struct, or behind the slot of a union that has
bytes, come back to none of them first. -/
theorem grounded_of_height (height : String → Nat)
    (h : ∀ s ∈ c.schema.structs, ∀ p ∈ s.fields.zipIdx, p.1.isUncounted = true →
      c.schema.hasStruct p.1.typeName = true → height p.1.typeName < height s.name ∨
        ∃ g ∈ s.fields.take p.2,
          (g.isHeld = true ∧ ∃ form ∈ c.schema.types.form? g.typeName, 0 < form.width) ∨
          ∃ u ∈ s.unions, u.members.head? = some g.name ∧
            ∃ bytes ∈ c.schema.unionSize? s u, 0 < bytes) (name : String) :
    c.Grounded name := by
  intro other _
  refine not_transGen_of_height height ?_ other
  rintro owner name ⟨s, hs, hname, i, f, hf, rfl, hun, hfront⟩
  obtain ⟨hmem, rfl⟩ := Schema.mem_of_struct? hs
  refine (h s hmem (f, i) (List.mem_zipIdx_iff_getElem?.mpr hf) hun hname).resolve_right ?_
  rintro ⟨g, hg, htakes⟩
  obtain ⟨j, hj, hget⟩ := List.mem_take_iff_getElem.mp hg
  have hlt : j < i := by omega
  refine hfront j hlt g ?_ ?_
  · rw [← hget]
    exact List.getElem?_eq_getElem _
  · rcases htakes with ⟨hheld, form, hform, hpos⟩ | ⟨u, hu, hfirst, bytes, hbytes, hpos⟩
    · exact .held hheld (.form hform hpos)
    · exact .slot hu hfirst hbytes hpos

end Codec

/-- **Accepted layouts end where they are grounded.** No struct of a schema that compiles has itself as
a part. And from a struct that leads to none that comes back to itself before a byte was taken, every
buffer is read to an end, however arrays lead from structs back to them: no more than `(n + 1) * N`
structs nest for `n` bytes, where `N` is the number of structs, since whatever would be read below that
depth, the outcome is the same. -/
theorem decode_ends_of_grounded {options : Options} {decls : List Declaration} {c : Codec}
    (hcompile : compile options decls = .ok c) :
    (∀ name, ¬ TransGen c.schema.Embeds name name) ∧
      ∀ s ∈ c.schema.structs, c.Grounded s.name → ∀ bytes,
        (∀ name, c.decode s.name bytes ≠ .error (.endless name)) ∧
        ∀ (base : Decoder) (depth : Nat), (bytes.length + 1) * c.schema.structs.length ≤ depth →
          c.enter^[depth] base s.name (Cursor.start bytes) =
            c.decoder s.name (Cursor.start bytes) := by
  have hc := sound_of_compile hcompile
  have hembeds := fun name => Schema.not_embeds_self_of_compile hcompile name
  refine ⟨hembeds, fun s hs hgrounded bytes => ?_⟩
  obtain ⟨hends, hdepth⟩ :=
    hc.decoder_within (hgrounded.ranked.decodeAt_ends hc hembeds hs .refl bytes)
  exact ⟨ends_iff.mp hends, hdepth⟩

/-- Chains of cells, in which each has all that are left behind its tag. -/
def cellDeclarations : List Declaration :=
  [ .struct { name := "Cell", comment := none, disposition := none
              fields :=
                [ { name := some "tag", typeName := some "uint8" },
                  { name := some "rest", typeName := some "Cell"
                    disposition := some "array_fill" } ] } ]

/-- A cell enters itself, but only behind its tag. So three bytes are read to an end. -/
theorem decode_ends_of_grounded_cell :
    let c := codecOf cellDeclarations
    compile {} cellDeclarations = .ok c ∧ TransGen c.schema.Enters "Cell" "Cell" ∧
      c.Grounded "Cell" ∧ (∀ name, c.decode "Cell" [1, 2, 3] ≠ .error (.endless name)) ∧
      ∀ (base : Decoder) (depth : Nat), 4 ≤ depth →
        c.enter^[depth] base "Cell" (Cursor.start [1, 2, 3]) =
          c.decoder "Cell" (Cursor.start [1, 2, 3]) := by
  intro c
  have hcompile : compile {} cellDeclarations = .ok c := compile_codecOf (by decide +kernel)
  have hgrounded : c.Grounded "Cell" := Codec.grounded_of_height (fun _ => 0) (by decide +kernel) _
  have hlength : c.schema.structs.length = 1 := by decide +kernel
  have hcycle : ∃ s ∈ c.schema.struct? "Cell", c.schema.hasStruct "Cell" = true ∧
      ∃ f ∈ s.fields, f.typeName = "Cell" ∧ f.isUncounted = true := by decide +kernel
  obtain ⟨s, hs, hname⟩ : ∃ s ∈ c.schema.structs, s.name = "Cell" := by decide +kernel
  obtain ⟨-, hends⟩ := decode_ends_of_grounded hcompile
  obtain ⟨hdecode, hdepth⟩ := hends s hs (hname ▸ hgrounded) [1, 2, 3]
  rw [hname] at hdecode hdepth
  rw [hlength] at hdepth
  exact ⟨hcompile, .single hcycle, hgrounded, hdecode, hdepth⟩

/-- A struct whose first step goes on with the same struct from the same bytes has no end: there is no
depth that is deep enough. -/
theorem Codec.decodeAt_endless {c : Codec} {name : String} {s : Struct} {plan : Plan}
    {cursor : Cursor} (hl : c.lookup name = .ok (s, plan)) {step : Step DecodeOp}
    {rest : List (Step DecodeOp)} (hdecode : plan.decode = step :: rest)
    (hstep : ∀ d : Decoder, d name cursor = .error (.endless name) →
      c.readStep d s plan (Progress.start s name cursor) step = .error (.endless name))
    (depth : Nat) : c.decodeAt depth name cursor = .error (.endless name) := by
  induction depth with
  | zero => rfl
  | succ depth ih =>
    rw [decodeAt_succ]
    unfold enter
    rw [hl, ok_bind]
    dsimp only
    rw [hdecode, List.foldlM_cons, hstep _ ih]
    rfl

theorem Element.read_of_error {d : Decoder} {ty : String} {cursor : Cursor} {e : CodecError}
    (h : d ty cursor = .error e) : (Element.struct ty).read d cursor = .error e := by
  simp only [Element.read, h]
  rfl

/-- A ring, in which a struct has an array of one of itself, and a chain of nodes that have nothing but
the nodes behind them. -/
def ringDeclarations : List Declaration :=
  [ .struct { name := "Ring", comment := none, disposition := none
              fields := [{ name := some "next", typeName := some "Ring"
                           disposition := some "array", size := some (.unsigned 1) }] },
    .struct { name := "Node", comment := none, disposition := none
              fields := [{ name := some "rest", typeName := some "Node"
                           disposition := some "array_fill" }] } ]

/-- Both are accepted, and both contain themselves: a ring is endless from the first, a chain as soon as
there is a byte, however deep structs may nest. -/
theorem endless_layouts_compile :
    let c := codecOf ringDeclarations
    compile {} ringDeclarations = .ok c ∧
      TransGen c.schema.Enters "Ring" "Ring" ∧ TransGen c.schema.Enters "Node" "Node" ∧
      c.decode "Ring" [] = .error (.endless "Ring") ∧
      c.decode "Node" [0] = .error (.endless "Node") ∧
      ∀ depth, c.decodeAt depth "Ring" (Cursor.start []) = .error (.endless "Ring") ∧
        c.decodeAt depth "Node" (Cursor.start [0]) = .error (.endless "Node") := by
  intro c
  have henters : ∀ name ∈ ["Ring", "Node"], ∃ s ∈ c.schema.struct? name,
      c.schema.hasStruct name = true ∧ ∃ f ∈ s.fields, f.typeName = name ∧ f.isUncounted = true := by
    decide +kernel
  have hring : ∃ q ∈ (c.lookup "Ring").toOption, q.2.decode =
      [{ field := "next", role := .array, guard := none
         op := .array (.struct "Ring") (.literal 1) }] := by decide +kernel
  have hnode : ∃ q ∈ (c.lookup "Node").toOption, q.2.decode =
      [{ field := "rest", role := .arrayFill, guard := none
         op := .fill (.struct "Node") }] := by decide +kernel
  refine ⟨compile_codecOf (by decide +kernel), .single (henters _ (by simp)),
    .single (henters _ (by simp)), ?_, ?_, fun depth => ⟨?_, ?_⟩⟩
  · exact eq_error_of_map (f := fun _ => ()) (by decide +kernel)
  · exact eq_error_of_map (f := fun _ => ()) (by decide +kernel)
  · obtain ⟨⟨s, plan⟩, hl, hdecode⟩ := exists_ok_of_toOption hring
    refine Codec.decodeAt_endless hl hdecode (fun d hd => ?_) depth
    have hitems : readCounted d (.struct "Ring") 1 (Cursor.start []) = .error (.endless "Ring") := by
      unfold readCounted
      rw [Element.read_of_error hd]
      rfl
    simp only [Codec.readStep, Codec.readOp, Codec.countOf, Progress.holds, Progress.start, if_true,
      ok_bind, hitems, error_bind]
  · obtain ⟨⟨s, plan⟩, hl, hdecode⟩ := exists_ok_of_toOption hnode
    refine Codec.decodeAt_endless hl hdecode (fun d hd => ?_) depth
    have hitems : readToEnd "rest" (fun here => (Element.struct "Node").read d here) 1
        (Cursor.start [0]) = .error (.endless "Node") := by
      unfold readToEnd
      rw [Element.read_of_error hd]
      rfl
    have hremaining : (Cursor.start [0]).remaining = 1 := rfl
    simp only [Codec.readStep, Codec.readOp, Progress.holds, Progress.start, if_true, ok_bind,
      hremaining, hitems, error_bind]

end WireLayout
