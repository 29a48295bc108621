import Mathlib.Data.List.DropRight
import Mathlib.Data.Nat.Digits.Defs
import Mathlib.Tactic.NormNum
import WireLayout.Scalar
import WireLayout.Proofs.Outcome

/-!
# Texts that denote integers

What a schema writes as text is a numeral or a word, between blanks that do not count. The grammar
of numerals is stated here by itself, with the value of digits read in their base, and the
classification of texts is proved to follow it: a text is a number exactly if a numeral in range is
left of it without its outer blanks, and a word in every other case.
-/

namespace WireLayout

namespace Text

/-! ## The grammar -/

/-- Whether the second text is the first one without the blanks around it. -/
structure Strips (s t : String) : Prop where
  between : ∃ front back : List Char, s.toList = front ++ t.toList ++ back ∧
    (∀ c ∈ front, isBlank c = true) ∧ ∀ c ∈ back, isBlank c = true
  first : ∀ c, t.toList.head? = some c → isBlank c = false
  last : ∀ c, t.toList.getLast? = some c → isBlank c = false

/-- The decimal digits in the order of their values. -/
def decimalDigits : List (List Char) := ["0123456789".toList]

/-- The hexadecimal digits of either case in the order of their values. -/
def hexDigits : List (List Char) := ["0123456789abcdef".toList, "0123456789ABCDEF".toList]

/-- Whether a character is the digit of a value. -/
def IsDigit (rows : List (List Char)) (c : Char) (value : Nat) : Prop :=
  ∃ row ∈ rows, row[value]? = some c

/-- Whether one or more digits denote a number in a base. -/
def Denotes (base : Nat) (rows : List (List Char)) (cs : List Char) (n : Nat) : Prop :=
  cs ≠ [] ∧ ∃ values, List.Forall₂ (IsDigit rows) cs values ∧ n = Nat.ofDigits base values.reverse

/-- The numerals and the integers they denote. -/
inductive Numeral : List Char → Int → Prop where
  | decimal {cs : List Char} {n : Nat} : Denotes 10 decimalDigits cs n → Numeral cs n
  | negative {cs : List Char} {n : Nat} : Denotes 10 decimalDigits cs n → Numeral ('-' :: cs) (-n)
  | hexadecimal {x : Char} {cs : List Char} {n : Nat} : x ∈ ['x', 'X'] →
      Denotes 16 hexDigits cs n → Numeral ('0' :: x :: cs) n
  | plusHexadecimal {x : Char} {cs : List Char} {n : Nat} : x ∈ ['x', 'X'] →
      Denotes 16 hexDigits cs n → Numeral ('0' :: x :: '+' :: cs) n
  | minusHexadecimal {x : Char} {cs : List Char} {n : Nat} : x ∈ ['x', 'X'] →
      Denotes 16 hexDigits cs n → Numeral ('0' :: x :: '-' :: cs) (-n)

variable {c : Char} {cs : List Char} {d n base : Nat} {z : Int}

/-! ## Blanks -/

theorem trimChars_of_between {front back : List Char} (hfront : ∀ c ∈ front, isBlank c = true)
    (hback : ∀ c ∈ back, isBlank c = true) (hfirst : ∀ c, cs.head? = some c → isBlank c = false)
    (hlast : ∀ c, cs.getLast? = some c → isBlank c = false) :
    trimChars (front ++ cs ++ back) = cs := by
  unfold trimChars
  rw [List.append_assoc, List.dropWhile_append_of_pos hfront]
  cases cs with
  | nil =>
    rw [List.nil_append, List.dropWhile_eq_nil_iff.mpr hback]
    rfl
  | cons c cs =>
    rw [List.cons_append, List.dropWhile_cons_of_neg (by simp [hfirst c rfl]), ← List.cons_append,
      List.reverse_append, List.dropWhile_append_of_pos (by simpa using hback)]
    exact List.rdropWhile_eq_self_iff.mpr fun h => by
      simp [hlast _ (List.getLast?_eq_some_getLast h)]

theorem trimChars_eq (cs : List Char) :
    trimChars cs = (cs.dropWhile isBlank).rdropWhile isBlank :=
  rfl

theorem trimChars_between (cs : List Char) : ∃ front back : List Char,
    cs = front ++ trimChars cs ++ back ∧ (∀ c ∈ front, isBlank c = true) ∧
      ∀ c ∈ back, isBlank c = true := by
  refine ⟨cs.takeWhile isBlank, (cs.dropWhile isBlank).rtakeWhile isBlank, ?_,
    fun c hc => List.mem_takeWhile_imp hc, fun c hc => List.mem_rtakeWhile_imp hc⟩
  rw [trimChars_eq, List.append_assoc, List.rdropWhile_append_rtakeWhile,
    List.takeWhile_append_dropWhile]

theorem isBlank_head?_trimChars (hc : (trimChars cs).head? = some c) : isBlank c = false := by
  rw [trimChars_eq] at hc
  obtain ⟨back, hsplit⟩ := List.rdropWhile_prefix isBlank (cs.dropWhile isBlank)
  have hhead : (cs.dropWhile isBlank).head? = some c := by
    rw [← hsplit, List.head?_append, hc]
    rfl
  have hnot := List.head?_dropWhile_not isBlank cs
  rw [hhead] at hnot
  exact hnot

theorem isBlank_getLast?_trimChars (hc : (trimChars cs).getLast? = some c) : isBlank c = false := by
  rw [trimChars_eq] at hc
  have hne : (cs.dropWhile isBlank).rdropWhile isBlank ≠ [] := by
    intro hnil
    rw [hnil] at hc
    cases hc
  rw [List.getLast?_eq_some_getLast hne] at hc
  obtain rfl := Option.some.inj hc
  exact eq_false_of_ne_true (List.rdropWhile_last_not isBlank _ hne)

/-- A text is stripped in one way. -/
theorem strips_iff {s t : String} : Strips s t ↔ t = trim s := by
  have htrim : (trim s).toList = trimChars s.toList := String.toList_ofList
  constructor
  · rintro ⟨⟨front, back, hs, hfront, hback⟩, hfirst, hlast⟩
    apply String.toList_inj.mp
    rw [htrim, hs, trimChars_of_between hfront hback hfirst hlast]
  · rintro rfl
    constructor
    case between =>
      rw [htrim]
      exact trimChars_between s.toList
    case first =>
      rw [htrim]
      exact fun c => isBlank_head?_trimChars
    case last =>
      rw [htrim]
      exact fun c => isBlank_getLast?_trimChars

/-! ## Digits -/

instance (rows : List (List Char)) (c : Char) (value : Nat) : Decidable (IsDigit rows c value) :=
  inferInstanceAs (Decidable (∃ row ∈ rows, row[value]? = some c))

/-- A character that is not before another one follows it at some distance, which tells its value if
it is not after the last of the row. -/
theorem isDigit_of_le {rows : List (List Char)} {lo hi : Char} (first : Nat)
    (hrow : ∀ k ≤ hi.toNat - lo.toNat, IsDigit rows (Char.ofNat (lo.toNat + k)) (k + first))
    (hlo : lo ≤ c) (hhi : c ≤ hi) : IsDigit rows c (c.toNat - lo.toNat + first) := by
  have hlo : lo.toNat ≤ c.toNat := UInt32.le_iff_toNat_le.mp hlo
  have hhi : c.toNat ≤ hi.toNat := UInt32.le_iff_toNat_le.mp hhi
  have hdigit := hrow (c.toNat - lo.toNat) (by omega)
  rw [Nat.add_sub_cancel' hlo, Char.ofNat_toNat] at hdigit
  exact hdigit

theorem eq_some_of_isDigit {rows : List (List Char)} {digit? : Char → Option Nat}
    (hrows : ∀ row ∈ rows, ∀ value < row.length, row[value]?.bind digit? = some value)
    (h : IsDigit rows c d) : digit? c = some d := by
  obtain ⟨row, hrow, hc⟩ := h
  obtain ⟨hlt, -⟩ := List.getElem?_eq_some_iff.mp hc
  have hd := hrows row hrow d hlt
  rw [hc] at hd
  exact hd

theorem decimalDigit?_eq_some : decimalDigit? c = some d ↔ IsDigit decimalDigits c d := by
  constructor
  · intro h
    unfold decimalDigit? at h
    split at h
    · rename_i hc
      obtain rfl := Option.some.inj h
      exact isDigit_of_le 0 (by decide) hc.1 hc.2
    · cases h
  · exact eq_some_of_isDigit (by decide)

theorem hexDigit?_eq_some : hexDigit? c = some d ↔ IsDigit hexDigits c d := by
  constructor
  · intro h
    unfold hexDigit? at h
    split at h
    · rename_i hc
      obtain rfl := Option.some.inj h
      exact isDigit_of_le 0 (by decide) hc.1 hc.2
    · split at h
      · rename_i hc
        obtain rfl := Option.some.inj h
        exact isDigit_of_le 10 (by decide) hc.1 hc.2
      · split at h
        · rename_i hc
          obtain rfl := Option.some.inj h
          exact isDigit_of_le 10 (by decide) hc.1 hc.2
        · cases h
  · exact eq_some_of_isDigit (by decide)

theorem digitsFrom_eq_some {digit? : Char → Option Nat} {acc : Nat} :
    digitsFrom base digit? acc cs = some n ↔
      ∃ values, List.Forall₂ (fun c d => digit? c = some d) cs values ∧
        n = values.foldl (fun acc d => acc * base + d) acc := by
  induction cs generalizing acc with
  | nil =>
    constructor
    · intro h
      exact ⟨[], .nil, (Option.some.inj h).symm⟩
    · rintro ⟨values, hvalues, rfl⟩
      cases hvalues
      rfl
  | cons c cs ih =>
    unfold digitsFrom
    cases hd : digit? c with
    | none =>
      constructor
      · intro h
        cases h
      · rintro ⟨values, hvalues, -⟩
        cases hvalues with
        | cons hc _ =>
          rw [hd] at hc
          cases hc
    | some d =>
      constructor
      · intro h
        obtain ⟨values, hvalues, hn⟩ := ih.mp h
        exact ⟨d :: values, .cons hd hvalues, hn⟩
      · rintro ⟨values, hvalues, hn⟩
        cases hvalues with
        | cons hc hvalues =>
          obtain rfl := Option.some.inj (hd.symm.trans hc)
          exact ih.mpr ⟨_, hvalues, hn⟩

theorem ofDigits_reverse (base : Nat) (values : List Nat) :
    Nat.ofDigits base values.reverse = values.foldl (fun acc d => acc * base + d) 0 := by
  rw [Nat.ofDigits_eq_foldr, List.foldr_reverse]
  simp only [Nat.cast_id, Nat.mul_comm base, Nat.add_comm]

/-- Digits are read as the number they denote. -/
theorem denotes_iff {digit? : Char → Option Nat} {rows : List (List Char)}
    (hdigit : ∀ c d, digit? c = some d ↔ IsDigit rows c d) :
    (if cs.isEmpty then none else digitsFrom base digit? 0 cs) = some n ↔
      Denotes base rows cs n := by
  unfold Denotes
  by_cases hcs : cs = []
  · subst hcs
    simp
  · rw [if_neg (by simpa using hcs), digitsFrom_eq_some]
    simp only [hdigit, hcs, ne_eq, not_false_eq_true, true_and]
    refine exists_congr fun values => and_congr_right fun _ => ?_
    rw [ofDigits_reverse]

theorem decimal?_eq_some : decimal? cs = some n ↔ Denotes 10 decimalDigits cs n :=
  denotes_iff fun _ _ => decimalDigit?_eq_some

theorem hexadecimal?_eq_some : hexadecimal? cs = some n ↔ Denotes 16 hexDigits cs n :=
  denotes_iff fun _ _ => hexDigit?_eq_some

/-- What is not a digit stands in no digits. -/
theorem not_denotes {digit? : Char → Option Nat} {rows : List (List Char)}
    (hdigit : ∀ c d, digit? c = some d ↔ IsDigit rows c d) (hc : digit? c = none) (hmem : c ∈ cs) :
    ¬ Denotes base rows cs n := by
  rintro ⟨-, values, hvalues, -⟩
  obtain ⟨d, -, hd⟩ := forall₂_mem_left hvalues hmem
  rw [← hdigit, hc] at hd
  cases hd

theorem not_decimal (hc : decimalDigit? c = none) (hmem : c ∈ cs) :
    ¬ Denotes 10 decimalDigits cs n :=
  not_denotes (fun _ _ => decimalDigit?_eq_some) hc hmem

theorem not_hexadecimal (hc : hexDigit? c = none) (hmem : c ∈ cs) :
    ¬ Denotes 16 hexDigits cs n :=
  not_denotes (fun _ _ => hexDigit?_eq_some) hc hmem

/-! ## Numerals -/

/-- Hexadecimal digits have no sign in front of them, so they are read as they are. -/
theorem signedHexadecimal?_of_denotes (h : Denotes 16 hexDigits cs n) :
    signedHexadecimal? cs = some n := by
  unfold signedHexadecimal?
  split
  · exact absurd h (not_hexadecimal (by decide) List.mem_cons_self)
  · exact absurd h (not_hexadecimal (by decide) List.mem_cons_self)
  · rw [hexadecimal?_eq_some.mpr h]
    rfl

/-- Decimal digits begin with no sign and with no hexadecimal prefix. -/
theorem numeral?_of_denotes (h : Denotes 10 decimalDigits cs n) : numeral? cs = some n := by
  unfold numeral?
  split
  · exact absurd h (not_decimal (by decide) (List.mem_cons_of_mem _ List.mem_cons_self))
  · exact absurd h (not_decimal (by decide) (List.mem_cons_of_mem _ List.mem_cons_self))
  · exact absurd h (not_decimal (by decide) List.mem_cons_self)
  · rw [decimal?_eq_some.mpr h]
    rfl

theorem numeral_of_signedHexadecimal? {x : Char} (hx : x ∈ ['x', 'X'])
    (h : signedHexadecimal? cs = some z) : Numeral ('0' :: x :: cs) z := by
  unfold signedHexadecimal? at h
  split at h
  · rename_i rest
    cases hn : hexadecimal? rest with
    | none =>
      rw [hn] at h
      cases h
    | some n =>
      rw [hn] at h
      obtain rfl := Option.some.inj h
      exact .minusHexadecimal hx (hexadecimal?_eq_some.mp hn)
  · obtain ⟨n, hn, rfl⟩ := Option.map_eq_some_iff.mp h
    exact .plusHexadecimal hx (hexadecimal?_eq_some.mp hn)
  · obtain ⟨n, hn, rfl⟩ := Option.map_eq_some_iff.mp h
    exact .hexadecimal hx (hexadecimal?_eq_some.mp hn)

theorem numeral?_of_hexadecimal {x : Char} (hx : x ∈ ['x', 'X']) :
    numeral? ('0' :: x :: cs) = signedHexadecimal? cs := by
  rcases List.mem_pair.mp hx with rfl | rfl <;> rfl

theorem numeral?_eq_some : numeral? cs = some z ↔ Numeral cs z := by
  constructor
  · intro h
    unfold numeral? at h
    split at h
    · exact numeral_of_signedHexadecimal? (by decide) h
    · exact numeral_of_signedHexadecimal? (by decide) h
    · rename_i rest
      cases hn : decimal? rest with
      | none =>
        rw [hn] at h
        cases h
      | some n =>
        rw [hn] at h
        obtain rfl := Option.some.inj h
        exact .negative (decimal?_eq_some.mp hn)
    · obtain ⟨n, hn, rfl⟩ := Option.map_eq_some_iff.mp h
      exact .decimal (decimal?_eq_some.mp hn)
  · intro h
    cases h with
    | decimal hn => exact numeral?_of_denotes hn
    | negative hn =>
      simp only [numeral?, decimal?_eq_some.mpr hn]
      rfl
    | hexadecimal hx hn =>
      rw [numeral?_of_hexadecimal hx]
      exact signedHexadecimal?_of_denotes hn
    | plusHexadecimal hx hn =>
      rw [numeral?_of_hexadecimal hx]
      simp only [signedHexadecimal?, hexadecimal?_eq_some.mpr hn]
      rfl
    | minusHexadecimal hx hn =>
      rw [numeral?_of_hexadecimal hx]
      simp only [signedHexadecimal?, hexadecimal?_eq_some.mpr hn]
      rfl

theorem inRange?_eq_some {m : Int} :
    inRange? m = some z ↔ m = z ∧ -2 ^ 127 ≤ z ∧ z ≤ 2 ^ 127 - 1 := by
  have hhalf : (integerHalf : Int) = 2 ^ 127 := by norm_num [integerHalf]
  unfold inRange? minInteger maxInteger
  rw [hhalf]
  constructor
  · intro h
    split at h
    · rename_i hrange
      obtain rfl := Option.some.inj h
      exact ⟨rfl, hrange⟩
    · cases h
  · rintro ⟨rfl, hrange⟩
    exact if_pos hrange

theorem integer?_eq_some {s : String} : integer? s = some z ↔
    Numeral (trim s).toList z ∧ -2 ^ 127 ≤ z ∧ z ≤ 2 ^ 127 - 1 := by
  unfold integer?
  have htrim : (trim s).toList = trimChars s.toList := String.toList_ofList
  simp only [Option.bind_eq_some_iff, numeral?_eq_some, inRange?_eq_some, htrim]
  constructor
  · rintro ⟨m, hm, rfl, hrange⟩
    exact ⟨hm, hrange⟩
  · rintro ⟨hz, hrange⟩
    exact ⟨z, hz, rfl, hrange⟩

end Text

/-- What is left of a text without the blanks around it decides what the text is: the number that it
denotes, if it is a numeral and the number has 128 bits with its sign, and otherwise a word. -/
theorem text_classified (s : String) : ∃ t, (∀ u, Text.Strips s u ↔ u = t) ∧
    (∀ n, (Scalar.text s).integer? = some n ↔
      Text.Numeral t.toList n ∧ -2 ^ 127 ≤ n ∧ n ≤ 2 ^ 127 - 1) ∧
    ∀ w, (Scalar.text s).word? = some w ↔
      w = t ∧ ¬ ∃ n, Text.Numeral t.toList n ∧ -2 ^ 127 ≤ n ∧ n ≤ 2 ^ 127 - 1 := by
  refine ⟨Text.trim s, fun u => Text.strips_iff, fun n => Text.integer?_eq_some, fun w => ?_⟩
  show (if (Text.integer? s).isNone then some (Text.trim s) else none) = some w ↔ _
  simp only [← Text.integer?_eq_some, ← Option.isSome_iff_exists]
  cases Text.integer? s with
  | none => simp [eq_comm]
  | some n => simp

example : (Scalar.text " 0x-2A\t").integer? = some (-42) := by decide +kernel

end WireLayout
