import WireLayout.Proofs.DecodeDepth

/-!
# Reading is local

A struct that is delimited takes some bytes from the front of a buffer, and what it is read as depends
on these bytes alone. So no message of such a struct is the beginning of another one. Regions of
polymorphic elements may hold structs that go on to their end: a region has an end of its own.
-/

namespace WireLayout

/-- A struct is delimited if it is one of some structs that hold no others in their own place and
have no arrays that go on to the end of the buffer. -/
theorem Schema.delimited_of_closed {schema : Schema} (names : List String)
    (hfill : ∀ s ∈ schema.structs, s.name ∈ names → ∀ f ∈ s.fields, f.disposition ≠ .arrayFill)
    (hclosed : ∀ s ∈ schema.structs, s.name ∈ names → ∀ f ∈ s.fields,
      (f.isStored = true ∨ f.disposition.role = .array) → f.typeName ∈ names)
    {name : String} (h : name ∈ names) : schema.Delimited name := by
  intro other hother
  have hmem : other ∈ names := by
    induction hother with
    | refl => exact h
    | tail _ hholds ih =>
      obtain ⟨s, hs, f, hf, rfl, hd⟩ := hholds
      obtain ⟨hsmem, rfl⟩ := mem_of_struct? hs
      refine hclosed s hsmem ih f hf (hd.imp_right ?_)
      rintro ⟨count, hd⟩
      rw [hd]
      rfl
  rintro ⟨s, hs, f, hf, hd⟩
  obtain ⟨hsmem, rfl⟩ := mem_of_struct? hs
  exact hfill s hsmem hmem f hf hd

namespace Codec

variable {c : Codec} {name : String}

/-- A delimited struct is read from the bytes that it takes, whatever follows them. -/
theorem Sound.decodePrefix_append (hc : c.Sound) (hd : c.schema.Delimited name) {bytes : Bytes}
    {r : Record} {n : Nat} (h : c.decodePrefix name bytes = .ok (r, n)) :
    n ≤ bytes.length ∧ ∀ more, c.decodePrefix name (bytes.take n ++ more) = .ok (r, n) := by
  obtain ⟨⟨r', after⟩, hread, hpair⟩ := map_eq_ok.mp h
  cases hpair
  obtain ⟨used, hused, hsame⟩ := hc.decoder_steady name _ _ _ hread
  obtain ⟨hrest, hlen⟩ := Cursor.Reads.start_iff.mp hused
  constructor
  · dsimp only
    rw [hlen, hrest, List.length_append]
    exact Nat.le_add_right _ _
  · intro more
    have htake : bytes.take after.offset = used := by
      rw [hlen, hrest, List.take_left]
    have hreads : (Cursor.start (used ++ more)).Reads used { offset := used.length, rest := more } :=
      Cursor.Reads.start_iff.mpr ⟨rfl, rfl⟩
    have hread' := hsame _ _ hreads (Or.inr hd)
    dsimp only
    rw [htake, hlen]
    exact map_eq_ok.mpr ⟨_, hread', rfl⟩

/-- A buffer that is read as a struct is read from its front, to its end. -/
theorem decodePrefix_of_decode {bytes : Bytes} {r : Record} (h : c.decode name bytes = .ok r) :
    c.decodePrefix name bytes = .ok (r, bytes.length) := by
  obtain ⟨⟨r', used⟩, hinit, h⟩ := bind_eq_ok.mp h
  dsimp only at h
  split at h
  · rename_i hused
    cases h
    rw [hinit, hused]
  · cases h

end Codec

/-- **Reading is local.** What a delimited struct is read as depends on the bytes that it takes: with
any others behind them it takes the same and is read the same. So no buffer that is read as such a
struct is the beginning of another one. -/
theorem decodePrefix_local {options : Options} {decls : List Declaration} {c : Codec}
    (hcompile : compile options decls = .ok c) {name : String}
    (hdelimited : c.schema.Delimited name) :
    (∀ bytes r n, c.decodePrefix name bytes = .ok (r, n) →
      n ≤ bytes.length ∧ ∀ more, c.decodePrefix name (bytes.take n ++ more) = .ok (r, n)) ∧
    ∀ bytes bytes' r r', c.decode name bytes = .ok r → c.decode name bytes' = .ok r' →
      bytes <+: bytes' → bytes = bytes' := by
  have hc := sound_of_compile hcompile
  constructor
  · intro bytes r n h
    exact hc.decodePrefix_append hdelimited h
  · rintro bytes - r r' h h' ⟨more, rfl⟩
    have hinit := Codec.decodePrefix_of_decode h
    have hinit' := Codec.decodePrefix_of_decode h'
    obtain ⟨-, hsame⟩ := hc.decodePrefix_append hdelimited hinit
    -- both reads take their whole buffer, and the longer buffer is read as the shorter one
    have hlonger := hsame more
    rw [List.take_length, hinit'] at hlonger
    have hlen : (bytes ++ more).length = bytes.length := congrArg Prod.snd (Except.ok.inj hlonger)
    rw [List.length_append] at hlen
    have hnil : more = [] := List.length_eq_zero_iff.mp (by omega)
    rw [hnil, List.append_nil]

/-- A mailbox of notes: a note's text goes on to the end of the mailbox's region. -/
def mailboxDeclarations : List Declaration :=
  [ .enum { name := "Kind", width := 1, signedness := .unsigned, comment := none
            members := [{ name := "note", value := .unsigned 1, comment := none }] },
    .struct { name := "Header", comment := none, disposition := some "abstract"
              fields := [{ name := some "kind", typeName := some "Kind" }] },
    .struct { name := "Note", comment := none, disposition := none
              fields :=
                [ { name := some "TRANSACTION_TYPE", typeName := some "Kind"
                    disposition := some "const", value := some (.text "note") },
                  { typeName := some "Header", disposition := some "inline" },
                  { name := some "text", typeName := some "uint8"
                    disposition := some "array_fill" } ] },
    .struct { name := "Mailbox", comment := none, disposition := none
              fields :=
                [ { typeName := some "Header", disposition := some "inline" },
                  { name := some "length", typeName := some "uint16" },
                  { name := some "notes", disposition := some "array_sized"
                    header := some "Header", headerTypeField := some "kind"
                    size := some (.text "length") } ] } ]

/-- A mailbox with a note of two letters takes six bytes, whatever follows them. -/
theorem decodePrefix_local_mailbox :
    compile {} mailboxDeclarations = .ok (codecOf mailboxDeclarations) ∧
    (codecOf mailboxDeclarations).schema.Delimited "Mailbox" ∧
    ∃ r, (codecOf mailboxDeclarations).decodePrefix "Mailbox" [1, 3, 0, 1, 7, 8, 99, 98] =
        .ok (r, 6) ∧
      ∀ more, (codecOf mailboxDeclarations).decodePrefix "Mailbox" ([1, 3, 0, 1, 7, 8] ++ more) =
        .ok (r, 6) := by
  have hcompile : compile {} mailboxDeclarations = .ok (codecOf mailboxDeclarations) :=
    compile_codecOf (by decide +kernel)
  have hdelimited : (codecOf mailboxDeclarations).schema.Delimited "Mailbox" :=
    Schema.delimited_of_closed ["Mailbox", "Header", "Kind", "uint16"]
      (by decide +kernel) (by decide +kernel) (by decide)
  have hread : ((codecOf mailboxDeclarations).decodePrefix "Mailbox"
      [1, 3, 0, 1, 7, 8, 99, 98]).toOption.map (·.2) = some 6 := by decide +kernel
  obtain ⟨⟨r, n⟩, hr, hn⟩ := Option.map_eq_some_iff.mp hread
  obtain rfl : n = 6 := hn
  have hr' := eq_ok_of_toOption hr
  obtain ⟨-, hsame⟩ := (decodePrefix_local hcompile hdelimited).1 _ r 6 hr'
  exact ⟨hcompile, hdelimited, r, hr', hsame⟩

end WireLayout
