import Mathlib.Data.List.Forall2
import Mathlib.Data.List.Nodup

/-!
# Runs that succeed

What is known when a computation that may fail has a result: which results its parts had, and for a
loop over a list, which states it went through.
-/

namespace WireLayout

variable {ε α β σ : Type}

theorem bind_eq_ok {x : Except ε α} {f : α → Except ε β} {b : β} :
    x >>= f = .ok b ↔ ∃ a, x = .ok a ∧ f a = .ok b := by
  cases x with
  | error e => simp [bind, Except.bind]
  | ok a => simp [bind, Except.bind]

theorem bind_eq_ok' {x : Except ε α} {f : α → Except ε β} {b : β} :
    x.bind f = .ok b ↔ ∃ a, x = .ok a ∧ f a = .ok b := bind_eq_ok

theorem bind_eq_error {x : Except ε α} {f : α → Except ε β} {e : ε} :
    x >>= f = .error e ↔ x = .error e ∨ ∃ a, x = .ok a ∧ f a = .error e := by
  cases x with
  | error e' => simp [bind, Except.bind]
  | ok a => simp [bind, Except.bind]

theorem map_eq_ok {x : Except ε α} {f : α → β} {b : β} :
    x.map f = .ok b ↔ ∃ a, x = .ok a ∧ f a = b := by
  cases x with
  | error e => simp [Except.map]
  | ok a => simp [Except.map]

theorem map_eq_error {x : Except ε α} {f : α → β} {e : ε} : x.map f = .error e ↔ x = .error e := by
  cases x with
  | error e' => simp [Except.map]
  | ok a => simp [Except.map]

theorem eq_error_of_map {x : Except ε α} {f : α → β} {e : ε} (h : x.map f = .error e) :
    x = .error e := map_eq_error.mp h

theorem mapError_eq_ok {ε' : Type} {x : Except ε α} {f : ε → ε'} {a : α} :
    x.mapError f = .ok a ↔ x = .ok a := by
  cases x <;> simp [Except.mapError]

theorem mapError_eq_error {ε' : Type} {x : Except ε α} {f : ε → ε'} {e : ε'} :
    x.mapError f = .error e ↔ ∃ e', x = .error e' ∧ f e' = e := by
  cases x <;> simp [Except.mapError]

theorem pure_eq_ok {a b : α} : (pure a : Except ε α) = .ok b ↔ a = b := by
  simp [pure, Except.pure]

@[simp] theorem ok_bind (a : α) (f : α → Except ε β) : (Except.ok a >>= f) = f a := rfl

@[simp] theorem error_bind (e : ε) (f : α → Except ε β) : (Except.error e >>= f) = .error e := rfl

@[simp] theorem ok_map (a : α) (f : α → β) : (Except.ok a : Except ε α).map f = .ok (f a) := rfl

/-- A traversal succeeds when each element does, and gives their results in order. -/
theorem mapM_eq_ok {f : α → Except ε β} {l : List α} {bs : List β} :
    l.mapM f = .ok bs ↔ List.Forall₂ (fun a b => f a = .ok b) l bs := by
  induction l generalizing bs with
  | nil =>
    rw [List.mapM_nil, pure_eq_ok, List.forall₂_nil_left_iff]
    exact eq_comm
  | cons a l ih =>
    rw [List.mapM_cons, bind_eq_ok]
    constructor
    · rintro ⟨b, hb, h⟩
      obtain ⟨bs', hbs, h⟩ := bind_eq_ok.mp h
      obtain rfl := pure_eq_ok.mp h
      exact .cons hb (ih.mp hbs)
    · rintro (_ | ⟨hb, hbs⟩)
      exact ⟨_, hb, bind_eq_ok.mpr ⟨_, ih.mpr hbs, rfl⟩⟩

/-- A check of all elements passes when each element does. -/
theorem forM_eq_ok {f : α → Except ε Unit} {l : List α} :
    l.forM f = .ok () ↔ ∀ a ∈ l, f a = .ok () := by
  induction l with
  | nil => simp [List.forM, pure, Except.pure]
  | cons a l ih =>
    have hcons : (a :: l).forM f = f a >>= fun _ => l.forM f := rfl
    rw [hcons, bind_eq_ok, List.forall_mem_cons, ← ih]
    constructor
    · rintro ⟨u, ha, hl⟩
      exact ⟨ha, hl⟩
    · rintro ⟨ha, hl⟩
      exact ⟨(), ha, hl⟩

/-- A traversal whose elements all succeed has a result. -/
theorem mapM_ok_of_forall {f : α → Except ε β} {l : List α} (h : ∀ a ∈ l, ∃ b, f a = .ok b) :
    ∃ bs, l.mapM f = .ok bs := by
  induction l with
  | nil => exact ⟨[], rfl⟩
  | cons a l ih =>
    obtain ⟨b, hb⟩ := h a (by simp)
    obtain ⟨bs, hbs⟩ := ih fun x hx => h x (List.mem_cons_of_mem _ hx)
    exact ⟨b :: bs, by rw [List.mapM_cons, hb, ok_bind, hbs]; rfl⟩

/-- A traversal of the computations that a list gives has a result for every element, when none of
them gives nothing. -/
theorem forall₂_of_mapM_filterMap {f : α → Option (Except ε β)} {R : α → β → Prop} {l : List α}
    {bs : List β} (h : (l.filterMap f).mapM id = .ok bs)
    (hf : ∀ a ∈ l, ∃ x, f a = some x ∧ ∀ b, x = .ok b → R a b) : List.Forall₂ R l bs := by
  rw [mapM_eq_ok] at h
  induction l generalizing bs with
  | nil => cases h; exact .nil
  | cons a l ih =>
    obtain ⟨x, hx, hR⟩ := hf a (by simp)
    rw [List.filterMap_cons_some hx] at h
    cases h with
    | cons hb hbs => exact .cons (hR _ hb) (ih hbs fun y hy => hf y (List.mem_cons_of_mem _ hy))

/-- A loop over the elements of several lists runs over one list after the other. -/
theorem foldlM_flatMap (f : σ → β → Except ε σ) (g : α → List β) (l : List α) (a : σ) :
    (l.flatMap g).foldlM f a = l.foldlM (fun a x => (g x).foldlM f a) a := by
  induction l generalizing a with
  | nil => rfl
  | cons x l ih =>
    rw [List.flatMap_cons, List.foldlM_append, List.foldlM_cons]
    exact congrArg _ (funext ih)

/-- A loop passes every element of its list. -/
theorem foldlM_split {f : σ → α → Except ε σ} {l l' : List α} {x : α} {a b : σ}
    (h : (l ++ x :: l').foldlM f a = .ok b) :
    ∃ p p', l.foldlM f a = .ok p ∧ f p x = .ok p' ∧ l'.foldlM f p' = .ok b := by
  rw [List.foldlM_append] at h
  obtain ⟨p, hp, h⟩ := bind_eq_ok.mp h
  rw [List.foldlM_cons] at h
  obtain ⟨p', hp', h⟩ := bind_eq_ok.mp h
  exact ⟨p, p', hp, hp', h⟩

/-- A sequence with one more element in front. -/
def precede (a : α) (later : Nat → α) : Nat → α
  | 0 => a
  | i + 1 => later i

/-- The states that a loop goes through, from the first to the last. -/
theorem foldlM_states {f : σ → α → Except ε σ} {l : List α} {a b : σ} (h : l.foldlM f a = .ok b) :
    ∃ st : Nat → σ, st 0 = a ∧ st l.length = b ∧
      ∀ i (hi : i < l.length), f (st i) l[i] = .ok (st (i + 1)) := by
  induction l generalizing a with
  | nil =>
    obtain rfl := pure_eq_ok.mp h
    exact ⟨fun _ => a, rfl, rfl, fun i hi => absurd hi (Nat.not_lt_zero i)⟩
  | cons x l ih =>
    rw [List.foldlM_cons] at h
    obtain ⟨a', hx, h⟩ := bind_eq_ok.mp h
    obtain ⟨st, h0, hn, hst⟩ := ih h
    refine ⟨precede a st, rfl, hn, ?_⟩
    intro i hi
    cases i with
    | zero =>
      show f a x = .ok (st 0)
      rw [h0]
      exact hx
    | succ i => exact hst i (Nat.lt_of_succ_lt_succ hi)

/-- A loop whose body keeps an invariant succeeds, and the invariant holds at the end. -/
theorem foldlM_ok_of_invariant {f : σ → α → Except ε σ} {l : List α} (inv : Nat → σ → Prop)
    (step : ∀ i (hi : i < l.length) a, inv i a → ∃ a', f a l[i] = .ok a' ∧ inv (i + 1) a')
    {a : σ} (start : inv 0 a) : ∃ b, l.foldlM f a = .ok b ∧ inv l.length b := by
  induction l generalizing a inv with
  | nil => exact ⟨a, rfl, start⟩
  | cons x l ih =>
    obtain ⟨a', hx, hinv⟩ := step 0 (Nat.zero_lt_succ _) a start
    obtain ⟨b, hb, hend⟩ := ih (fun i => inv (i + 1))
      (fun i hi a h => step (i + 1) (Nat.succ_lt_succ hi) a h) hinv
    refine ⟨b, ?_, hend⟩
    rw [List.foldlM_cons]
    exact bind_eq_ok.mpr ⟨a', hx, hb⟩

/-- A loop fails when it gets to an element that fails. -/
theorem foldlM_eq_error {f : σ → α → Except ε σ} {l : List α} {a : σ} {e : ε} :
    l.foldlM f a = .error e ↔ ∃ before x after b, l = before ++ x :: after ∧
      before.foldlM f a = .ok b ∧ f b x = .error e := by
  induction l generalizing a with
  | nil => simp [pure, Except.pure]
  | cons y l ih =>
    rw [List.foldlM_cons, bind_eq_error]
    constructor
    · rintro (h | ⟨b, hb, h⟩)
      · exact ⟨[], y, l, a, rfl, rfl, h⟩
      · obtain ⟨before, x, after, b', rfl, hbefore, hx⟩ := ih.mp h
        refine ⟨y :: before, x, after, b', rfl, ?_, hx⟩
        rw [List.foldlM_cons, hb, ok_bind, hbefore]
    · rintro ⟨before, x, after, b', hl, hbefore, hx⟩
      cases before with
      | nil =>
        obtain ⟨rfl, rfl⟩ := List.cons.inj hl
        obtain rfl := pure_eq_ok.mp hbefore
        exact Or.inl hx
      | cons z before =>
        obtain ⟨rfl, rfl⟩ := List.cons.inj hl
        obtain ⟨b, hb, hbefore⟩ := bind_eq_ok.mp hbefore
        exact Or.inr ⟨b, hb, ih.mpr ⟨before, x, after, b', rfl, hbefore, hx⟩⟩

/-- A loop whose steps change nothing ends where it started. -/
theorem foldlM_of_fixed {f : σ → α → Except ε σ} {l : List α} {a : σ}
    (h : ∀ x ∈ l, f a x = .ok a) : l.foldlM f a = .ok a := by
  induction l with
  | nil => rfl
  | cons x l ih =>
    rw [List.foldlM_cons]
    exact bind_eq_ok.mpr ⟨a, h x (by simp), ih fun y hy => h y (List.mem_cons_of_mem _ hy)⟩

/-- What every step of a loop keeps holds at the end. -/
theorem foldlM_invariant {f : σ → α → Except ε σ} {l : List α} (inv : σ → Prop)
    (step : ∀ x ∈ l, ∀ a a', inv a → f a x = .ok a' → inv a') {a b : σ} (start : inv a)
    (h : l.foldlM f a = .ok b) : inv b := by
  induction l generalizing a with
  | nil => obtain rfl := pure_eq_ok.mp h; exact start
  | cons x l ih =>
    rw [List.foldlM_cons] at h
    obtain ⟨a', hx, h⟩ := bind_eq_ok.mp h
    exact ih (fun y hy => step y (List.mem_cons_of_mem _ hy))
      (step x (by simp) a a' start hx) h

/-- An element of the first of two related lists has its partner at the same place. -/
theorem forall₂_getElem? {R : α → β → Prop} {l : List α} {bs : List β} (h : List.Forall₂ R l bs)
    {i : Nat} {a : α} (ha : l[i]? = some a) : ∃ b, bs[i]? = some b ∧ R a b := by
  induction h generalizing i with
  | nil => simp at ha
  | cons hR _ ih =>
    cases i with
    | zero =>
      simp only [List.getElem?_cons_zero, Option.some.injEq] at ha
      exact ⟨_, rfl, ha ▸ hR⟩
    | succ i => exact ih ha

/-- An element of the first of two related lists has a partner in the second. -/
theorem forall₂_mem_left {R : α → β → Prop} {l : List α} {bs : List β} (h : List.Forall₂ R l bs)
    {a : α} (ha : a ∈ l) : ∃ b ∈ bs, R a b := by
  obtain ⟨i, hi⟩ := List.mem_iff_getElem?.mp ha
  obtain ⟨b, hb, hR⟩ := forall₂_getElem? h hi
  exact ⟨b, List.mem_of_getElem? hb, hR⟩

/-- An element of the second of two related lists has a partner in the first. -/
theorem forall₂_mem_right {R : α → β → Prop} {l : List α} {bs : List β} (h : List.Forall₂ R l bs)
    {b : β} (hb : b ∈ bs) : ∃ a ∈ l, R a b := forall₂_mem_left h.flip hb

/-- What is related to an element of a list stands between what is related to those before and after
it. -/
theorem forall₂_split {R : α → β → Prop} {l l' : List α} {a : α} {bs : List β}
    (h : List.Forall₂ R (l ++ a :: l') bs) :
    ∃ front b back, bs = front ++ b :: back ∧ List.Forall₂ R l front ∧ R a b ∧
      List.Forall₂ R l' back := by
  induction l generalizing bs with
  | nil =>
    cases h with
    | cons hab hrest => exact ⟨[], _, _, rfl, .nil, hab, hrest⟩
  | cons x l ih =>
    cases h with
    | cons hx hrest =>
      obtain ⟨front, b, back, rfl, hfront, hab, hback⟩ := ih hrest
      exact ⟨_ :: front, b, back, rfl, .cons hx hfront, hab, hback⟩

/-- Related elements that have equal images have equal lists of images. -/
theorem forall₂_map_eq {γ : Type} {R : α → β → Prop} {l : List α} {bs : List β}
    (h : List.Forall₂ R l bs) {f : α → γ} {g : β → γ} (hfg : ∀ a b, R a b → f a = g b) :
    l.map f = bs.map g := by
  induction h with
  | nil => rfl
  | cons hR _ ih => rw [List.map_cons, List.map_cons, hfg _ _ hR, ih]

/-- Elements related in order are found by tests that agree on related elements. -/
theorem forall₂_find? {R : α → β → Prop} {l : List α} {bs : List β} (h : List.Forall₂ R l bs)
    {p : α → Bool} {q : β → Bool} (hpq : ∀ a b, R a b → p a = q b) {a : α} {b : β}
    (ha : l.find? p = some a) (hb : bs.find? q = some b) : R a b := by
  induction h with
  | nil => simp at ha
  | @cons x y l bs hR _ ih =>
    rw [List.find?_cons] at ha hb
    rw [← hpq x y hR] at hb
    cases hp : p x with
    | true => simp only [hp, Option.some.injEq] at ha hb; exact ha ▸ hb ▸ hR
    | false => simp only [hp] at ha hb; exact ih ha hb

/-- The first element that passes a test is the image of its partner, if the tests agree on related
elements. -/
theorem forall₂_find?_map {R : α → β → Prop} {l : List α} {bs : List β} (h : List.Forall₂ R l bs)
    {p : α → Bool} {q : β → Bool} {g : β → α} (hg : ∀ a b, R a b → g b = a)
    (hpq : ∀ a b, R a b → p a = q b) : l.find? p = (bs.find? q).map g := by
  induction h with
  | nil => rfl
  | @cons x y l bs hR _ ih =>
    rw [List.find?_cons, List.find?_cons, hpq x y hR]
    cases q y with
    | true => exact congrArg some (hg x y hR).symm
    | false => exact ih

/-- What is found under a key is the element of the key, where keys are unique. -/
theorem find?_eq_some_of_nodup {κ : Type} [BEq κ] [LawfulBEq κ] {key : α → κ} {l : List α}
    (hkeys : (l.map key).Nodup) {k : κ} {a : α} :
    l.find? (fun x => key x == k) = some a ↔ a ∈ l ∧ key a = k := by
  constructor
  · exact fun h => ⟨List.mem_of_find?_eq_some h, by simpa using List.find?_some h⟩
  · rintro ⟨ha, rfl⟩
    cases hfind : l.find? fun x => key x == key a with
    | none => exact absurd (beq_self_eq_true (key a)) (List.find?_eq_none.mp hfind a ha)
    | some b =>
      have hkey : key b = key a := by simpa using List.find?_some hfind
      rw [List.inj_on_of_nodup_map hkeys (List.mem_of_find?_eq_some hfind) ha hkey]

/-! ## What comes before an element -/

/-- An element of lists put together lies behind the lists before its own. -/
theorem flatMap_split {g : α → List β} {l : List α} {before after : List β} {x : β}
    (h : l.flatMap g = before ++ x :: after) :
    ∃ l₁ a l₂ b b', l = l₁ ++ a :: l₂ ∧ g a = b ++ x :: b' ∧ before = l₁.flatMap g ++ b := by
  induction l generalizing before with
  | nil => simp at h
  | cons a l ih =>
    rw [List.flatMap_cons] at h
    rcases List.append_eq_append_iff.mp h with ⟨more, rfl, hrest⟩ | ⟨more, hfront, hrest⟩
    · obtain ⟨l₁, a', l₂, b, b', rfl, hb, rfl⟩ := ih hrest
      exact ⟨a :: l₁, a', l₂, b, b', rfl, hb, by simp⟩
    · cases more with
      | nil =>
        have hrest : l.flatMap g = [] ++ x :: after := hrest.symm
        obtain ⟨l₁, a', l₂, b, b', rfl, hb, hnil⟩ := ih hrest
        refine ⟨a :: l₁, a', l₂, b, b', rfl, hb, ?_⟩
        rw [List.flatMap_cons, List.append_assoc, ← hnil, hfront, List.append_nil, List.append_nil]
      | cons y more =>
        obtain ⟨rfl, -⟩ := List.cons.inj hrest
        exact ⟨[], a, l, before, more, rfl, hfront, rfl⟩

/-- What comes before an element of two lists put together, if the element is in the second: all of the
first. -/
theorem mem_of_append_eq {l l' before after : List α} {x : α}
    (h : l ++ l' = before ++ x :: after) (hx : x ∉ l) : ∀ y ∈ l, y ∈ before := by
  intro y hy
  rcases List.append_eq_append_iff.mp h with ⟨more, rfl, -⟩ | ⟨more, rfl, hrest⟩
  · exact List.mem_append_left _ hy
  · cases more with
    | nil => simpa using hy
    | cons z more =>
      obtain ⟨rfl, -⟩ := List.cons.inj hrest
      exact absurd (by simp) hx

/-! ## Computations that fail only so -/

/-- Whether a computation only ends in faults that are allowed. -/
def FailsOnly (allowed : ε → Prop) (x : Except ε α) : Prop :=
  ∀ e, x = .error e → allowed e

namespace FailsOnly

variable {allowed : ε → Prop}

@[simp] theorem ok (a : α) : FailsOnly allowed (.ok a) := nofun

@[simp] theorem error_iff {e : ε} :
    FailsOnly allowed (.error e : Except ε α) ↔ allowed e :=
  ⟨fun h => h e rfl, fun h _ he => Except.error.inj he ▸ h⟩

theorem bind {x : Except ε α} {f : α → Except ε β} (hx : FailsOnly allowed x)
    (hf : ∀ a, x = .ok a → FailsOnly allowed (f a)) : FailsOnly allowed (x >>= f) := by
  intro e h
  rcases bind_eq_error.mp h with herr | ⟨a, ha, herr⟩
  · exact hx e herr
  · exact hf a ha e herr

theorem map {x : Except ε α} (hx : FailsOnly allowed x) (f : α → β) :
    FailsOnly allowed (x.map f) := by
  cases x with
  | error e => exact error_iff.mpr (error_iff.mp hx)
  | ok a => exact ok _

/-- What goes on from a computation only fails so if the whole does. -/
theorem of_bind {x : Except ε α} {f : α → Except ε β} (h : FailsOnly allowed (x >>= f)) :
    FailsOnly allowed x ∧ ∀ a, x = .ok a → FailsOnly allowed (f a) := by
  constructor
  · intro e hx
    exact h e (bind_eq_error.mpr (Or.inl hx))
  · intro a ha e hf
    exact h e (bind_eq_error.mpr (Or.inr ⟨a, ha, hf⟩))

/-- A loop only fails where one of its steps does, after those before it. -/
theorem foldlM {f : σ → α → Except ε σ} {l : List α} {a : σ}
    (h : ∀ before x after b, l = before ++ x :: after → before.foldlM f a = .ok b →
      FailsOnly allowed (f b x)) : FailsOnly allowed (l.foldlM f a) := by
  induction l generalizing a with
  | nil => exact ok a
  | cons x l ih =>
    rw [List.foldlM_cons]
    refine bind (h [] x l a rfl rfl) fun a' ha' => ih ?_
    intro before y after b hl hb
    refine h (x :: before) y after b (by rw [hl, List.cons_append]) ?_
    rw [List.foldlM_cons, ha']
    exact hb

end FailsOnly

/-! ## Computations that succeed more often -/

/-- Whether the second computation has the result of the first, if that has one. -/
def Below (x y : Except ε α) : Prop := ∀ a, x = .ok a → y = .ok a

theorem Below.refl (x : Except ε α) : Below x x := fun _ h => h

theorem Below.trans {x y z : Except ε α} (h : Below x y) (h' : Below y z) : Below x z :=
  fun a ha => h' a (h a ha)

theorem Below.error (e : ε) (y : Except ε α) : Below (.error e) y := fun _ h => by cases h

theorem Below.bind {x y : Except ε α} {f g : α → Except ε β} (h : Below x y)
    (hfg : ∀ a, x = .ok a → Below (f a) (g a)) : Below (x >>= f) (y >>= g) := by
  intro b hb
  obtain ⟨a, ha, hb⟩ := bind_eq_ok.mp hb
  exact bind_eq_ok.mpr ⟨a, h a ha, hfg a ha b hb⟩

/-- The second half of a computation that goes on from the same result. -/
theorem Below.bind_right {x : Except ε α} {f g : α → Except ε β}
    (hfg : ∀ a, x = .ok a → Below (f a) (g a)) : Below (x >>= f) (x >>= g) :=
  (Below.refl x).bind hfg

/-! ## Relations between computations -/

/-- Whether a relation between computations holds of every computation and itself, and is kept when
related computations go on from the results of the first. -/
structure Sequential (R : (α : Type) → Except ε α → Except ε α → Prop) : Prop where
  refl : ∀ {α : Type} (x : Except ε α), R α x x
  bind : ∀ {α β : Type} {x y : Except ε α} {f g : α → Except ε β}, R α x y →
    (∀ a, x = .ok a → R β (f a) (g a)) → R β (x >>= f) (y >>= g)

theorem Below.sequential : Sequential fun α (x y : Except ε α) => Below x y where
  refl := Below.refl
  bind := Below.bind

/-- What the second computation gives, the first gives. -/
theorem Below.sequential_flip : Sequential fun α (x y : Except ε α) => Below y x where
  refl := Below.refl
  bind := by
    intro α β x y f g hxy hfg b hb
    obtain ⟨a, ha, hb⟩ := bind_eq_ok.mp hb
    exact bind_eq_ok.mpr ⟨a, hxy a ha, hfg a (hxy a ha) b hb⟩

namespace Sequential

variable {R : (α : Type) → Except ε α → Except ε α → Prop}

theorem bind_right (hR : Sequential R) {x : Except ε α} {f g : α → Except ε β}
    (hfg : ∀ a, x = .ok a → R β (f a) (g a)) : R β (x >>= f) (x >>= g) :=
  hR.bind (hR.refl x) hfg

theorem map (hR : Sequential R) {x y : Except ε α} (h : R α x y) (f : α → β) :
    R β (x.map f) (y.map f) := by
  have hbind : ∀ z : Except ε α, z.map f = z >>= fun a => .ok (f a) := by
    intro z
    cases z <;> rfl
  rw [hbind x, hbind y]
  exact hR.bind h fun a _ => hR.refl _

theorem foldlM (hR : Sequential R) {f g : σ → α → Except ε σ} {l : List α} (inv : σ → Prop)
    (h : ∀ a, inv a → ∀ x ∈ l, R σ (f a x) (g a x))
    (keep : ∀ a, inv a → ∀ x ∈ l, ∀ a', f a x = .ok a' → inv a') {a : σ} (start : inv a) :
    R σ (l.foldlM f a) (l.foldlM g a) := by
  induction l generalizing a with
  | nil => exact hR.refl _
  | cons x l ih =>
    rw [List.foldlM_cons, List.foldlM_cons]
    refine hR.bind (h a start x (by simp)) fun a' ha' => ?_
    refine ih (fun a ha y hy => h a ha y (List.mem_cons_of_mem _ hy)) ?_ ?_
    · exact fun a ha y hy => keep a ha y (List.mem_cons_of_mem _ hy)
    · exact keep a start x (by simp) a' ha'

end Sequential

end WireLayout
