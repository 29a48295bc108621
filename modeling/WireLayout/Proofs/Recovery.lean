import WireLayout.Proofs.PrefixFree
import WireLayout.Proofs.Reencode
import WireLayout.Proofs.SizeOfDecoded

/-!
# Records that can be written again

A reader drops the numbers of elements, and a writer counts the elements again. A number is lost if
none of its arrays is there: it is written as zero. A condition that tests it may then be decided
otherwise by the writer than by the reader, and ask for a field that was not read. Where no condition
is, the record that was read is written, in as many bytes as it was read from.
-/

namespace WireLayout

namespace Codec

variable (c : Codec)

/-- Reads a struct as the decoder does, but only if, in it and in all structs that are read on the way,
the elements that are there decide the conditions as the numbers of elements did that were read. -/
def recountAt : Nat → Decoder
  | 0 => fun name _ => .error (.endless name)
  | depth + 1 => fun name cursor => do
    let (s, plan) ← c.lookup name
    let p ← plan.decode.foldlM (c.readStep (recountAt depth) s plan) (Progress.start s name cursor)
    if s.RecountsAll p then .ok (p.record, p.cursor) else .error (.lengthMismatch name 0 0)

/-- Whether no number of elements that decides a condition is lost when a buffer is read. -/
def Recounted (name : String) (bytes : Bytes) : Prop :=
  (c.recountAt (c.depthIn bytes.length) name (Cursor.start bytes)).toOption.isSome = true

instance (name : String) (bytes : Bytes) : Decidable (c.Recounted name bytes) :=
  inferInstanceAs (Decidable (_ = true))

variable {c}

theorem recountAt_succ_eq_ok {n : Nat} {name : String} {cursor cursor' : Cursor} {r : Record} :
    c.recountAt (n + 1) name cursor = .ok (r, cursor') ↔
      ∃ s plan p, c.lookup name = .ok (s, plan) ∧
        plan.decode.foldlM (c.readStep (c.recountAt n) s plan) (Progress.start s name cursor) =
          .ok p ∧ s.RecountsAll p ∧ p.record = r ∧ p.cursor = cursor' := by
  simp only [recountAt, bind_eq_ok]
  constructor
  · rintro ⟨⟨s, plan⟩, hl, p, hp, h⟩
    split at h
    · rename_i hrecounts
      cases h
      exact ⟨s, plan, p, hl, hp, hrecounts, rfl, rfl⟩
    · cases h
  · rintro ⟨s, plan, p, hl, hp, hrecounts, rfl, rfl⟩
    exact ⟨(s, plan), hl, p, hp, if_pos hrecounts⟩

/-- What is read with care is what the decoder reads. -/
theorem Sound.recountAt_below (hc : c.Sound) (n : Nat) :
    (c.decodeAt n).RelatedOn (fun _ x y => Below y x) (fun _ => True) (c.recountAt n) := by
  induction n with
  | zero => exact fun name _ _ => Below.refl _
  | succ n ih =>
    intro name cursor _
    refine Below.sequential_flip.bind_right fun q _ => Below.sequential_flip.bind ?_ fun p _ => ?_
    · exact readSteps_related Below.sequential_flip (fun _ _ _ => ⟨trivial, trivial⟩)
        (hc.decodeAt_steady n) ih _ _ _ (inside_start _ _ trivial)
    · split
      · exact Below.refl _
      · exact Below.error _ _

/-- No number is lost where each one that a condition tests is that of an array that is always
there. -/
theorem Sound.recounted_of_anchored (hc : c.Sound) (hanchored : c.schema.CountsAnchored)
    {name : String} {bytes : Bytes} {r : Record} (h : c.decode name bytes = .ok r) :
    c.Recounted name bytes := by
  have key : ∀ n, (c.decodeAt n).BelowOn (fun _ => True) (c.recountAt n) := by
    intro n
    induction n with
    | zero => exact fun name _ _ => Below.error _ _
    | succ n ih =>
      intro name cursor _
      refine Below.sequential.bind_right fun q hl => Below.sequential.bind ?_ fun p hp => ?_
      · exact readSteps_related Below.sequential (fun _ _ _ => ⟨trivial, trivial⟩)
          (hc.decodeAt_steady n) ih _ _ _ (inside_start _ _ trivial)
      obtain ⟨slots, entries, st, mid, hr, -, rfl⟩ := hc.ran_of_steps hl hp
      obtain ⟨-, hs, -⟩ := hc.planned_of_lookup hl
      have hrecounts : q.1.RecountsAll (st entries.length) := fun f hf _ cond hcond =>
        hr.recounts_of_anchored ((hanchored q.1 hs f hf).1 cond hcond)
      rw [if_pos hrecounts]
      exact Below.refl _
  obtain ⟨q, hread, -⟩ := map_eq_ok.mp (decodePrefix_of_decode h)
  have hcareful : c.recountAt (c.depthIn bytes.length) name (Cursor.start bytes) = .ok q :=
    key _ name _ trivial q hread
  unfold Recounted
  rw [hcareful]
  rfl

/-- What is read with care is written in as many bytes as it was read from. -/
theorem Sound.rewrites_recountAt (hc : c.Sound) (hsettled : c.schema.PromisesSettled) (n : Nat) :
    c.Rewrites False (c.recountAt n) := by
  induction n with
  | zero =>
    intro name cursor r cursor' h
    cases h
  | succ n ih =>
    intro name cursor r cursor' h
    obtain ⟨s, plan, p, hl, hsteps, hrecounts, rfl, rfl⟩ := recountAt_succ_eq_ok.mp h
    exact hc.rewritten_of_steps hsettled False.elim ih hl hsteps hrecounts

end Codec

/-- **What was read can be written.** A record that was read from a buffer is written, in as many bytes
as the buffer has, if no number of elements that decides a condition was lost on the way and no promised
size depends on one. -/
theorem encode_ok_of_decode {options : Options} {decls : List Declaration} {c : Codec}
    (hcompile : compile options decls = .ok c) (hsettled : c.schema.PromisesSettled) {name : String}
    {bytes : Bytes} {r : Record} (h : c.decode name bytes = .ok r)
    (hrecounted : c.Recounted name bytes) :
    ∃ bytes', c.encode r = .ok bytes' ∧ bytes'.length = bytes.length := by
  have hc := sound_of_compile hcompile
  obtain ⟨⟨r', cursor⟩, hread, hpair⟩ := map_eq_ok.mp (Codec.decodePrefix_of_decode h)
  obtain ⟨rfl, hoffset⟩ : r' = r ∧ cursor.offset = bytes.length := Prod.mk.inj hpair
  -- the careful reader reads the same
  obtain ⟨q, hq⟩ := Option.isSome_iff_exists.mp hrecounted
  have hq := eq_ok_of_toOption hq
  have hsame : c.decodeAt (c.depthIn bytes.length) name (Cursor.start bytes) = .ok q :=
    hc.recountAt_below _ name _ trivial q hq
  obtain rfl : q = (r', cursor) := Except.ok.inj (hsame.symm.trans hread)
  obtain ⟨used, hreads, hwritten⟩ := hc.rewrites_recountAt hsettled _ _ _ _ _ hq
  obtain ⟨hrest, hlen⟩ := Cursor.Reads.start_iff.mp hreads
  obtain ⟨bytes', hbytes', halike⟩ := hwritten.written (c.depthOf r') [] (Nat.le_add_right _ _)
  refine ⟨bytes', ?_, by rw [halike.1, ← hlen, hoffset]⟩
  unfold Codec.encode Codec.encoder
  rw [hwritten.typeName]
  exact hbytes'

/-- A tally, whose ids are there on demand and whose note is there if the number of ids is zero. -/
def tallyDeclarations : List Declaration :=
  [ .struct { name := "Tally", comment := none, disposition := none
              fields :=
                [ { name := some "count", typeName := some "uint8" },
                  { name := some "kind", typeName := some "uint8" },
                  { name := some "ids", typeName := some "uint8", disposition := some "array"
                    size := some (.text "count"), condition := some "kind"
                    conditionOperation := some "equals", conditionValue := some (.unsigned 1) },
                  { name := some "note", typeName := some "uint8", condition := some "count"
                    conditionOperation := some "equals"
                    conditionValue := some (.unsigned 0) } ] } ]

/-- A parcel, which promises the size of a block that is there if there are ids. -/
def parcelDeclarations : List Declaration :=
  [ .alias { name := "Block", width := none, signedness := none, arraySize := some 128
             printHint := none, comment := none },
    .struct { name := "Parcel", comment := none, disposition := none
              fields :=
                [ { name := some "count", typeName := some "uint8" },
                  { name := some "blockSize", typeName := some "int8"
                    disposition := some "reserved", value := some (.text "sizeof block") },
                  { name := some "block", typeName := some "Block", condition := some "count"
                    conditionOperation := some "not_equals"
                    conditionValue := some (.unsigned 0) },
                  { name := some "ids", typeName := some "uint8", disposition := some "array"
                    size := some (.text "count") } ] } ]

/-- A tally without ids is written if it has a note, and one with ids if it has none. -/
theorem encode_ok_of_decode_tally :
    compile {} tallyDeclarations = .ok (codecOf tallyDeclarations) ∧
    (codecOf tallyDeclarations).schema.PromisesSettled ∧
    ∀ bytes ∈ [([0, 0, 7] : Bytes), [2, 1, 9, 8]], ∃ r bytes',
      (codecOf tallyDeclarations).decode "Tally" bytes = .ok r ∧
      (codecOf tallyDeclarations).Recounted "Tally" bytes ∧
      (codecOf tallyDeclarations).encode r = .ok bytes' ∧ bytes'.length = bytes.length := by
  have hcompile : compile {} tallyDeclarations = .ok (codecOf tallyDeclarations) :=
    compile_codecOf (by decide +kernel)
  have hsettled : (codecOf tallyDeclarations).schema.PromisesSettled := by decide +kernel
  have hread : ∀ bytes ∈ [([0, 0, 7] : Bytes), [2, 1, 9, 8]],
      ((codecOf tallyDeclarations).decode "Tally" bytes).toOption.isSome = true := by
    decide +kernel
  have hrecounted : ∀ bytes ∈ [([0, 0, 7] : Bytes), [2, 1, 9, 8]],
      (codecOf tallyDeclarations).Recounted "Tally" bytes := by decide +kernel
  refine ⟨hcompile, hsettled, fun bytes hbytes => ?_⟩
  obtain ⟨r, hr⟩ := Option.isSome_iff_exists.mp (hread bytes hbytes)
  have hr := eq_ok_of_toOption hr
  obtain ⟨bytes', hbytes', hlen⟩ :=
    encode_ok_of_decode hcompile hsettled hr (hrecounted bytes hbytes)
  exact ⟨r, bytes', hr, hrecounted bytes hbytes, hbytes', hlen⟩

/-- A tally of five ids that are not there is read without a note, and not written for the lack of one.
A parcel with an id is read, since no block is expected before the id is, and not written, since the
block's size is no value of the promise. -/
theorem tally_not_written :
    (compile {} tallyDeclarations = .ok (codecOf tallyDeclarations) ∧
      ∃ r, (codecOf tallyDeclarations).decode "Tally" [5, 0] = .ok r ∧
        (codecOf tallyDeclarations).encode r = .error (.missingField "Tally" "note")) ∧
    compile {} parcelDeclarations = .ok (codecOf parcelDeclarations) ∧
      ∃ r, (codecOf parcelDeclarations).decode "Parcel" ([1, 0] ++ Bytes.zeros 128 ++ [7]) = .ok r ∧
        (codecOf parcelDeclarations).encode r = .error (.outOfRange "int8" 128) :=
  ⟨⟨compile_codecOf (by decide +kernel), exists_ok_of_toOption (by decide +kernel)⟩,
    compile_codecOf (by decide +kernel), exists_ok_of_toOption (by decide +kernel)⟩

end WireLayout
