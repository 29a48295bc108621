import WireLayout.Proofs.TwosComplement
import WireLayout.Proofs.Widths

/-!
# Readers

A reader is a buffer and the number of bytes that were read of it. It is asked for bytes, for integers
or for readers of the bytes ahead, which are asked in turn, all of them in any order. Whatever the
requests are, each reader stays inside its buffer and has handed out what is behind it, every byte once
and in order; a request that fails leaves all readers as they were. A cursor, which has the bytes ahead
instead of the buffer, answers in the same way.
-/

namespace WireLayout

/-- A place in a buffer. -/
structure Reader where
  /-- The buffer. -/
  bytes : Bytes
  /-- The number of bytes behind. -/
  offset : Nat

namespace Reader

/-- The start of a buffer. -/
def start (bytes : Bytes) : Reader := { bytes, offset := 0 }

/-- The number of bytes ahead. -/
def remaining (r : Reader) : Nat := r.bytes.length - r.offset

/-- The bytes ahead. -/
def rest (r : Reader) : Bytes := r.bytes.drop r.offset

/-- Takes the next `len` bytes. Their end is computed in 64 bits: a sum that has more is as far out of
bounds as one that is behind the buffer. -/
def take (r : Reader) (len : Nat) : Except CodecError Bytes × Reader :=
  match (addSize? r.offset len).filter fun stop => stop ≤ r.bytes.length with
  | some stop => (.ok (r.bytes.extract r.offset stop), { r with offset := stop })
  | none => (.error (.outOfBounds r.offset len), r)

/-- Passes over the next `len` bytes. -/
def skip (r : Reader) (len : Nat) : Except CodecError Unit × Reader :=
  (r.take len).map (·.map fun _ => ()) id

/-- Takes an integer: the one of the sixteen bytes that its own are filled up to. -/
def takeInt (r : Reader) (t : IntType) : Except CodecError Int × Reader :=
  (r.take t.bytes).map (·.map fun chunk => Bytes.toInt (t.widen chunk)) id

/-- Passes over the next `len` bytes and gives a reader of them. -/
def sub (r : Reader) (len : Nat) : Except CodecError Reader × Reader :=
  (r.take len).map (·.map start) id

/-- The same place without the bytes behind. -/
def cursor (r : Reader) : Cursor := { offset := r.offset, rest := r.rest }

end Reader

/-! ## Requests -/

/-- What a reader can be asked for. -/
inductive Request where
  /-- The next `len` bytes. -/
  | take (len : Nat)
  /-- To pass over the next `len` bytes. -/
  | skip (len : Nat)
  /-- The next integer. -/
  | int (t : IntType)
  /-- All bytes ahead, which stay ahead. -/
  | rest
  /-- A reader of the next `len` bytes. -/
  | sub (len : Nat)

/-- What is answered, where `ρ` are the readers. -/
inductive Reply (ρ : Type) where
  /-- Bytes. -/
  | bytes (bs : Bytes)
  /-- That they were passed over. -/
  | done
  /-- An integer. -/
  | int (v : Int)
  /-- A reader, to be asked in turn. -/
  | reader (inner : ρ)

/-- The same answer, with another kind of reader. -/
def Reply.map {ρ ρ' : Type} (f : ρ → ρ') : Reply ρ → Reply ρ'
  | .bytes bs => .bytes bs
  | .done => .done
  | .int v => .int v
  | .reader inner => .reader (f inner)

namespace Request

/-- What a reader answers to a request, and the reader after it. -/
def ask (r : Reader) : Request → Except CodecError (Reply Reader) × Reader
  | .take len => (r.take len).map (·.map .bytes) id
  | .skip len => (r.skip len).map (·.map fun _ => .done) id
  | .int t => (r.takeInt t).map (·.map .int) id
  | .rest => (.ok (.bytes r.rest), r)
  | .sub len => (r.sub len).map (·.map .reader) id

/-- What a cursor answers to a request, and the cursor behind what was asked for. -/
def seek (c : Cursor) : Request → Except CodecError (Reply Cursor × Cursor)
  | .take len => (c.take len).map fun p => (.bytes p.1, p.2)
  | .skip len => (c.skip len).map fun next => (.done, next)
  | .int t => (c.takeInt t).map fun p => (.int p.1, p.2)
  | .rest => .ok (.bytes c.rest, c)
  | .sub len => (c.region len).map fun p => (.reader p.1, p.2)

/-- How many bytes a request asks for. -/
def wanted : Request → Nat
  | .take len | .skip len | .sub len => len
  | .int t => t.bytes
  | .rest => 0

/-- The bytes that are handed out with an answer: those that were passed over too, those of the
integer, and all those of a reader. -/
def handed (r : Reader) : Request → Reply Reader → Bytes
  | .take _, .bytes bs => bs
  | .skip len, .done => r.rest.take len
  | .int t, .int v => t.toBytes v
  | .sub _, .reader inner => inner.bytes
  | _, _ => []

end Request

/-- A reader, and what it has handed out so far. -/
structure Account where
  /-- The reader. -/
  reader : Reader
  /-- What was handed out, in order. -/
  handed : List Bytes

/-- The account of a reader to which nothing was asked. -/
def Account.start (r : Reader) : Account := { reader := r, handed := [] }

/-- The account after a request: the reader is the one that the request leaves. -/
def Account.enter (a : Account) (q : Request) : Account :=
  { reader := (q.ask a.reader).2
    handed := match (q.ask a.reader).1 with
      | .ok reply => a.handed ++ [q.handed a.reader reply]
      | .error _ => a.handed }

/-- The accounts of the readers that come with an answer. -/
def Account.opened (a : Account) (q : Request) : List Account :=
  match (q.ask a.reader).1 with
  | .ok (.reader inner) => [Account.start inner]
  | _ => []

/-- The accounts after the reader of the one at `i` was asked. That of a reader that comes with the
answer is put last; a request to no reader changes nothing. -/
def serve (accounts : List Account) (i : Nat) (q : Request) : List Account :=
  match accounts[i]? with
  | none => accounts
  | some a => accounts.set i (a.enter q) ++ a.opened q

/-- The accounts after a run of requests that starts with a single reader of a buffer. -/
def serveAll (bytes : Bytes) (requests : List (Nat × Request)) : List Account :=
  requests.foldl (fun accounts p => serve accounts p.1 p.2) [Account.start (Reader.start bytes)]

/-! ## One request -/

namespace Reader

variable {r : Reader}

theorem take_of_le (len : Nat) (hlimit : r.offset + len < sizeLimit)
    (hlen : r.offset + len ≤ r.bytes.length) :
    r.take len = (.ok (r.rest.take len), { r with offset := r.offset + len }) := by
  have hextract : r.bytes.extract r.offset (r.offset + len) = r.rest.take len := by
    rw [List.extract_eq_take_drop, Nat.add_sub_cancel_left]
    rfl
  unfold take addSize?
  rw [if_pos hlimit, Option.filter_some, if_pos (by simpa using hlen)]
  exact congrArg (fun bs => (Except.ok bs, _)) hextract

theorem take_of_not_le (len : Nat)
    (h : ¬ (r.offset + len < sizeLimit ∧ r.offset + len ≤ r.bytes.length)) :
    r.take len = (.error (.outOfBounds r.offset len), r) := by
  unfold take addSize?
  by_cases hlimit : r.offset + len < sizeLimit
  · rw [if_pos hlimit, Option.filter_some, if_neg (by simpa using fun hlen => h ⟨hlimit, hlen⟩)]
  · rw [if_neg hlimit]
    rfl

theorem length_take_rest (len : Nat) (hlen : r.offset + len ≤ r.bytes.length) :
    (r.rest.take len).length = len := by
  unfold rest
  rw [List.length_take, List.length_drop]
  omega

theorem take_cursor (len : Nat) (hlen : r.offset + len ≤ r.bytes.length) : r.cursor.take len =
    .ok (r.rest.take len, cursor { r with offset := r.offset + len }) := by
  refine Cursor.take_eq_ok.mpr ⟨?_, length_take_rest len hlen, rfl⟩
  have hrest : rest { r with offset := r.offset + len } = r.rest.drop len := by
    unfold rest
    rw [List.drop_drop]
  exact (List.take_append_drop len r.rest).symm.trans (congrArg _ hrest.symm)

end Reader

namespace Request

variable {q : Request} {r : Reader}

/-- Whether a reader has what is asked for. The bytes ahead are there anyway. -/
def Fits (r : Reader) : Request → Prop
  | .rest => True
  | q => r.offset + q.wanted < sizeLimit ∧ r.offset + q.wanted ≤ r.bytes.length

/-- What is asked for, of the bytes ahead. -/
def answer (r : Reader) : Request → Reply Reader
  | .take len => .bytes (r.rest.take len)
  | .skip _ => .done
  | .int t => .int (Bytes.toInt (t.widen (r.rest.take t.bytes)))
  | .rest => .bytes r.rest
  | .sub len => .reader (Reader.start (r.rest.take len))

/-- A request is answered from the bytes ahead, and the reader goes on by as many as it wants. -/
theorem ask_of_fits (h : q.Fits r) :
    q.ask r = (.ok (q.answer r), { r with offset := r.offset + q.wanted }) := by
  cases q with
  | take len =>
    rw [ask, Reader.take_of_le len h.1 h.2]
    rfl
  | skip len =>
    rw [ask, Reader.skip, Reader.take_of_le len h.1 h.2]
    rfl
  | int t =>
    rw [ask, Reader.takeInt, Reader.take_of_le t.bytes h.1 h.2]
    rfl
  | rest => rfl
  | sub len =>
    rw [ask, Reader.sub, Reader.take_of_le len h.1 h.2]
    rfl

/-- Or it fails, and the reader stays where it is. -/
theorem ask_of_not_fits (h : ¬ q.Fits r) :
    q.ask r = (.error (.outOfBounds r.offset q.wanted), r) := by
  cases q with
  | take len =>
    rw [ask, Reader.take_of_not_le len h]
    rfl
  | skip len =>
    rw [ask, Reader.skip, Reader.take_of_not_le len h]
    rfl
  | int t =>
    rw [ask, Reader.takeInt, Reader.take_of_not_le t.bytes h]
    rfl
  | rest => exact absurd trivial h
  | sub len =>
    rw [ask, Reader.sub, Reader.take_of_not_le len h]
    rfl

theorem le_of_fits (h : q.Fits r) (hin : r.offset ≤ r.bytes.length) :
    r.offset + q.wanted ≤ r.bytes.length := by
  cases q with
  | rest => exact hin
  | _ => exact h.2

theorem fits_iff (hin : r.offset ≤ r.bytes.length) (hlimit : r.bytes.length < sizeLimit) :
    q.Fits r ↔ q.wanted ≤ r.remaining := by
  unfold Reader.remaining
  constructor
  · intro h
    have hle := le_of_fits h hin
    omega
  · intro h
    cases q with
    | rest => trivial
    | _ => exact ⟨by omega, by omega⟩

/-- The bytes that are handed out are those that the reader goes on by. -/
theorem handed_answer (h : r.offset + q.wanted ≤ r.bytes.length) :
    q.handed r (q.answer r) = r.rest.take q.wanted := by
  cases q with
  | int t =>
    have hlen := Reader.length_take_rest t.bytes h
    rw [answer, handed, t.toInt_widen hlen, (t.toBytes_ofBytes hlen).2]
    rfl
  | _ => rfl

/-! ## Cursors -/

theorem seek_eq_error {c : Cursor} {e : CodecError} :
    q.seek c = .error e ↔ c.remaining < q.wanted ∧ e = .outOfBounds c.offset q.wanted := by
  cases q with
  | take len => exact map_eq_error.trans Cursor.take_eq_error
  | skip len => exact map_eq_error.trans (map_eq_error.trans Cursor.take_eq_error)
  | int t => exact map_eq_error.trans (map_eq_error.trans Cursor.take_eq_error)
  | rest => simp [seek, wanted]
  | sub len => exact map_eq_error.trans (map_eq_error.trans Cursor.take_eq_error)

/-- A cursor gives the same answer from the bytes ahead as a reader. -/
theorem seek_of_le (h : r.offset + q.wanted ≤ r.bytes.length) : q.seek r.cursor =
    .ok ((q.answer r).map Reader.cursor, Reader.cursor { r with offset := r.offset + q.wanted }) := by
  cases q with
  | take len =>
    rw [seek, Reader.take_cursor len h]
    rfl
  | skip len =>
    rw [seek, Cursor.skip, Reader.take_cursor len h]
    rfl
  | int t =>
    rw [seek, Cursor.takeInt, Reader.take_cursor t.bytes h, answer,
      t.toInt_widen (Reader.length_take_rest t.bytes h)]
    rfl
  | rest => rfl
  | sub len =>
    rw [seek, Cursor.region, Reader.take_cursor len h]
    rfl

end Request

/-! ## Accounts -/

/-- What an account says: the reader is inside of its buffer, which has at most so many bytes, and has
handed out the bytes behind it. -/
structure Account.Tracks (a : Account) (limit : Nat) : Prop where
  inside : a.reader.offset ≤ a.reader.bytes.length
  length_le : a.reader.bytes.length ≤ limit
  handed : a.handed.flatten = a.reader.bytes.take a.reader.offset

namespace Account

variable {a : Account} {q : Request} {limit : Nat}

theorem tracks_start {r : Reader} (hlength : r.bytes.length ≤ limit) (hoffset : r.offset = 0) :
    (start r).Tracks limit where
  inside := hoffset ▸ Nat.zero_le _
  length_le := hlength
  handed := by
    rw [start, hoffset]
    rfl

/-- A request that fails leaves the account, and opens no other. -/
theorem enter_of_error {e : CodecError} (h : (q.ask a.reader).1 = .error e) :
    a.enter q = a ∧ a.opened q = [] := by
  have hfits : ¬ q.Fits a.reader := by
    intro hfits
    rw [Request.ask_of_fits hfits] at h
    cases h
  unfold enter opened
  rw [Request.ask_of_not_fits hfits]
  exact ⟨rfl, rfl⟩

theorem Tracks.enter (h : a.Tracks limit) (q : Request) : (a.enter q).Tracks limit := by
  by_cases hfits : q.Fits a.reader
  · have hle := Request.le_of_fits hfits h.inside
    unfold Account.enter
    rw [Request.ask_of_fits hfits]
    refine ⟨hle, h.length_le, ?_⟩
    dsimp only
    rw [List.flatten_concat, h.handed, Request.handed_answer hle, Reader.rest, ← List.take_add]
  · obtain ⟨hsame, -⟩ := enter_of_error (congrArg Prod.fst (Request.ask_of_not_fits hfits))
    rwa [hsame]

/-- A reader that comes with an answer is at the start of its buffer, which is no longer than the one
that was asked. -/
theorem Tracks.opened (h : a.Tracks limit) (q : Request) : ∀ b ∈ a.opened q, b.Tracks limit := by
  have hlength := h.length_le
  unfold Account.opened
  by_cases hfits : q.Fits a.reader
  · rw [Request.ask_of_fits hfits]
    cases q with
    | sub len =>
      intro b hb
      obtain rfl := List.mem_singleton.mp hb
      refine tracks_start ?_ rfl
      unfold Reader.start Reader.rest
      rw [List.length_take, List.length_drop]
      omega
    | _ => exact fun b hb => nomatch hb
  · rw [Request.ask_of_not_fits hfits]
    exact fun b hb => nomatch hb

end Account

/-! ## Runs of requests -/

/-- One request keeps all accounts right. -/
theorem tracks_of_serve {accounts : List Account} {limit : Nat}
    (h : ∀ a ∈ accounts, a.Tracks limit) (i : Nat) (q : Request) :
    ∀ a ∈ serve accounts i q, a.Tracks limit := by
  unfold serve
  split
  · exact h
  · rename_i a ha
    have htracks := h a (List.mem_of_getElem? ha)
    intro b hb
    rcases List.mem_append.mp hb with hb | hb
    · rcases List.mem_or_eq_of_mem_set hb with hb | rfl
      · exact h b hb
      · exact htracks.enter q
    · exact htracks.opened q b hb

/-- So does a run, by induction on the requests. -/
theorem tracks_of_serveAll (bytes : Bytes) (requests : List (Nat × Request)) :
    ∀ a ∈ serveAll bytes requests, a.Tracks bytes.length := by
  have hrun : ∀ accounts : List Account, (∀ a ∈ accounts, a.Tracks bytes.length) →
      ∀ a ∈ requests.foldl (fun accounts p => serve accounts p.1 p.2) accounts,
        a.Tracks bytes.length := by
    induction requests with
    | nil => exact fun _ h => h
    | cons p requests ih => exact fun accounts h => ih _ (tracks_of_serve h p.1 p.2)
  apply hrun
  intro a ha
  obtain rfl := List.mem_singleton.mp ha
  exact Account.tracks_start (Nat.le_refl _) rfl

theorem serve_of_error {accounts : List Account} {i : Nat} {a : Account} (ha : accounts[i]? = some a)
    {q : Request} {e : CodecError} (h : (q.ask a.reader).1 = .error e) :
    serve accounts i q = accounts := by
  obtain ⟨henter, hopened⟩ := Account.enter_of_error h
  obtain ⟨hi, hget⟩ := List.getElem?_eq_some_iff.mp ha
  simp only [serve, ha, henter, hopened, List.append_nil]
  rw [← hget, List.set_getElem_self]

/-- However a reader of a buffer and the readers that come out of it are asked, each of them stays
inside its own buffer: what is behind it and what is ahead make the buffer up, and what it has handed
out, one after the other, is what is behind. A request that fails leaves every reader as it was; one
that is answered takes the reader on by as many bytes as it wants. In buffers of which the length has 64
bits, a request fails exactly if it wants more bytes than are ahead, although the end of what is taken is
computed in 64 bits; and a cursor gives the same answers as the reader. A cursor has no limit: it always
fails exactly if more is wanted than is ahead. -/
theorem readers_lose_nothing (bytes : Bytes) (requests : List (Nat × Request)) {i : Nat}
    {a : Account} (ha : (serveAll bytes requests)[i]? = some a) :
    a.reader.offset + a.reader.remaining = a.reader.bytes.length ∧
      a.reader.bytes.length ≤ bytes.length ∧
      a.handed.flatten = a.reader.bytes.take a.reader.offset ∧
      a.handed.flatten ++ a.reader.rest = a.reader.bytes ∧
      (∀ (q : Request) e, (q.ask a.reader).1 = .error e → (q.ask a.reader).2 = a.reader ∧
        serve (serveAll bytes requests) i q = serveAll bytes requests) ∧
      (∀ (q : Request) reply, (q.ask a.reader).1 = .ok reply →
        (q.ask a.reader).2 = { a.reader with offset := a.reader.offset + q.wanted }) ∧
      (a.reader.bytes.length < sizeLimit → ∀ q : Request,
        (∀ e, (q.ask a.reader).1 = .error e ↔
          a.reader.remaining < q.wanted ∧ e = .outOfBounds a.reader.offset q.wanted) ∧
        q.seek a.reader.cursor = (q.ask a.reader).1.map fun reply =>
          (reply.map Reader.cursor, (q.ask a.reader).2.cursor)) ∧
      (∀ (q : Request) e, q.seek a.reader.cursor = .error e ↔
        a.reader.remaining < q.wanted ∧ e = .outOfBounds a.reader.offset q.wanted) ∧
      (∀ (q : Request) reply next, q.seek a.reader.cursor = .ok (reply, next) →
        next.offset = a.reader.offset + q.wanted) := by
  have htracks := tracks_of_serveAll bytes requests a (List.mem_of_getElem? ha)
  have hinside := htracks.inside
  have hcursor : a.reader.cursor.remaining = a.reader.remaining := List.length_drop
  have hseek : ∀ (q : Request) e, q.seek a.reader.cursor = .error e ↔
      a.reader.remaining < q.wanted ∧ e = .outOfBounds a.reader.offset q.wanted :=
    fun q e => hcursor ▸ Request.seek_eq_error
  refine ⟨Nat.add_sub_of_le hinside, htracks.length_le, htracks.handed, ?_, fun q e h => ?_,
    fun q reply h => ?_, fun hlimit q => ?_, hseek, fun q reply next h => ?_⟩
  · rw [htracks.handed]
    exact List.take_append_drop _ _
  · refine ⟨?_, serve_of_error ha h⟩
    exact congrArg Account.reader (Account.enter_of_error h).1
  · by_cases hfits : q.Fits a.reader
    · rw [Request.ask_of_fits hfits]
    · rw [Request.ask_of_not_fits hfits] at h
      cases h
  · by_cases hle : q.wanted ≤ a.reader.remaining
    · rw [Request.ask_of_fits ((Request.fits_iff hinside hlimit).mpr hle)]
      refine ⟨fun e => iff_of_false nofun fun h => by omega, Request.seek_of_le ?_⟩
      unfold Reader.remaining at hle
      omega
    · rw [Request.ask_of_not_fits fun h => hle ((Request.fits_iff hinside hlimit).mp h)]
      refine ⟨fun e => ?_, (hseek q _).mpr ⟨Nat.lt_of_not_le hle, rfl⟩⟩
      simp [Nat.lt_of_not_le hle, eq_comm]
  · have hle : q.wanted ≤ a.reader.remaining := by
      by_contra hlt
      rw [(hseek q _).mpr ⟨Nat.lt_of_not_le hlt, rfl⟩] at h
      cases h
    unfold Reader.remaining at hle
    rw [Request.seek_of_le (by omega)] at h
    cases h
    rfl

/-- A reader of the three bytes in the middle of a buffer, from which an integer was read. The outer
reader was asked to skip the largest number of 64 bits, which fails. -/
theorem readers_lose_nothing_inner :
    let accounts := serveAll [1, 2, 3, 4, 5]
      [(0, .take 1), (0, .sub 3), (1, .int ⟨.two, .signed⟩), (0, .skip 18446744073709551615)]
    let inner : Account := { reader := { bytes := [2, 3, 4], offset := 2 }, handed := [[2, 3]] }
    accounts[1]? = some inner ∧
      inner.reader.offset + inner.reader.remaining = inner.reader.bytes.length ∧
      inner.handed.flatten = inner.reader.bytes.take inner.reader.offset ∧
      (Request.ask inner.reader (.take 2)).1 = .error (.outOfBounds 2 2) ∧
      (Request.ask inner.reader (.take 2)).2 = inner.reader ∧
      serve accounts 1 (.take 2) = accounts := by
  intro accounts inner
  have hinner : accounts[1]? = some inner := rfl
  obtain ⟨hlength, -, hhanded, -, hunchanged, -, hfails, -⟩ := readers_lose_nothing _ _ hinner
  have hask : (Request.ask inner.reader (.take 2)).1 = .error (.outOfBounds 2 2) :=
    ((hfails (by decide) (.take 2)).1 _).mpr ⟨by decide, rfl⟩
  obtain ⟨hsame, hserve⟩ := hunchanged _ _ hask
  exact ⟨hinner, hlength, hhanded, hask, hsame, hserve⟩

end WireLayout
