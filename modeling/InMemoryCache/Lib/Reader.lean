-- SUMMARY: Cursor readers that may run out of input, and the laws that make their answers stable.
import InMemoryCache.Lib.Decoder
import Mathlib.Data.List.Infix

/-!
# Cursor readers

A reader takes a value off the front of a cursor and leaves the rest, runs out of
input, or rejects what it sees. `Reads n` says that its answers are those of an
incremental decoder that takes at least `n` items: an answer survives further
input, and a reader that ran out consumes some of the new input when it is retried
with more. The laws are closed under sequencing, so a recursive-descent reader
obeys them because its parts do.
-/

namespace Lib

/-- Why a reader stops: the input ran out, or it is malformed. -/
inductive ReadError (ε : Type) where
  | incomplete
  | other (e : ε)
  deriving DecidableEq, Repr

/-- A computation over a cursor, given by the items from the cursor's position on. -/
abbrev Reader (β ε : Type) := StateT (List β) (Except (ReadError ε))

namespace Reader

variable {β ε α γ : Type}

/-! ## Primitives -/

/-- Give up because the input ran out. -/
def starve : Reader β ε α := fun _ => .error .incomplete

/-- Reject the input. -/
def reject (e : ε) : Reader β ε α := fun _ => .error (.other e)

/-- Look at the next item. -/
def peek : Reader β ε β
  | [] => .error .incomplete
  | b :: s => .ok (b, b :: s)

/-- Take the next item. -/
def next : Reader β ε β
  | [] => .error .incomplete
  | b :: s => .ok (b, s)

/-- Run out of input unless `n` items remain. -/
def ensure (n : Nat) : Reader β ε Unit := fun s =>
  if s.length < n then .error .incomplete else .ok ((), s)

/-- Take the next `n` items. -/
def takeN (n : Nat) : Reader β ε (List β) := fun s =>
  if s.length < n then .error .incomplete else .ok (s.take n, s.drop n)

/-- Run a reader `n` times. -/
def times (g : Reader β ε α) : Nat → Reader β ε Unit
  | 0 => pure ()
  | n + 1 => g >>= fun _ => times g n

/-- Run a reader `n` times and keep what it reads. -/
def collect (g : Reader β ε α) : Nat → Reader β ε (List α)
  | 0 => pure []
  | n + 1 => g >>= fun a => collect g n >>= fun as => pure (a :: as)

theorem bind_apply (x : Reader β ε α) (f : α → Reader β ε γ) (s : List β) :
    (x >>= f) s = match x s with
      | .ok (a, r) => f a r
      | .error e => .error e := by
  show StateT.bind x f s = _
  simp only [StateT.bind, bind, Except.bind]
  cases x s <;> rfl

theorem bind_ok {x : Reader β ε α} {f : α → Reader β ε γ} {s r : List β} {a : α}
    (h : x s = .ok (a, r)) : (x >>= f) s = f a r := by
  rw [bind_apply, h]

theorem bind_error {x : Reader β ε α} {f : α → Reader β ε γ} {s : List β} {e : ReadError ε}
    (h : x s = .error e) : (x >>= f) s = .error e := by
  rw [bind_apply, h]

theorem bind_eq_ok {x : Reader β ε α} {f : α → Reader β ε γ} {s r : List β} {c : γ} :
    (x >>= f) s = .ok (c, r) ↔ ∃ a t, x s = .ok (a, t) ∧ f a t = .ok (c, r) := by
  rw [bind_apply]
  cases h : x s with
  | ok p =>
    obtain ⟨a, t⟩ := p
    simp
  | error e => simp

/-- A sequence fails in its first part, or in its second after the first succeeded. -/
theorem bind_eq_error {x : Reader β ε α} {f : α → Reader β ε γ} {s : List β} {e : ReadError ε} :
    (x >>= f) s = .error e ↔
      x s = .error e ∨ ∃ a t, x s = .ok (a, t) ∧ f a t = .error e := by
  rw [bind_apply]
  cases h : x s with
  | ok p =>
    obtain ⟨a, t⟩ := p
    simp
  | error e' => simp

/-! ## What a reader can return -/

/-- Every value the reader returns satisfies `P`. -/
def Yields (P : α → Prop) (g : Reader β ε α) : Prop := ∀ ⦃s a r⦄, g s = .ok (a, r) → P a

theorem yields_pure {P : α → Prop} {a : α} (h : P a) : Yields P (pure a : Reader β ε α) := by
  intro s b r hb
  cases hb
  exact h

theorem yields_reject {P : α → Prop} {e : ε} : Yields P (Reader.reject e : Reader β ε α) := by
  intro s a r h
  cases h

theorem yields_starve {P : α → Prop} : Yields P (starve : Reader β ε α) := by
  intro s a r h
  cases h

theorem Yields.bind {P : α → Prop} {Q : γ → Prop} {x : Reader β ε α} {f : α → Reader β ε γ}
    (hx : Yields P x) (hf : ∀ a, P a → Yields Q (f a)) : Yields Q (x >>= f) := by
  intro s c r h
  obtain ⟨a, t, ha, hc⟩ := bind_eq_ok.mp h
  exact hf a (hx ha) hc

theorem Yields.bind_any {Q : γ → Prop} {x : Reader β ε α} {f : α → Reader β ε γ}
    (hf : ∀ a, Yields Q (f a)) : Yields Q (x >>= f) :=
  Yields.bind (P := fun _ => True) (fun _ _ _ _ => trivial) fun a _ => hf a

theorem Yields.collect {P : α → Prop} {g : Reader β ε α} (hg : Yields P g) (n : Nat) :
    Yields (fun as => ∀ a ∈ as, P a) (Reader.collect g n) := by
  induction n with
  | zero => exact yields_pure (by simp)
  | succ n ih =>
    exact hg.bind fun a ha => ih.bind fun as has => yields_pure (by simpa using ⟨ha, has⟩)

/-- Running a reader and keeping what it reads takes the same items. -/
theorem times_eq_ok {g : Reader β ε α} {n : Nat} {s r : List β} :
    times g n s = .ok ((), r) ↔ ∃ as, collect g n s = .ok (as, r) := by
  induction n generalizing s with
  | zero =>
    constructor
    · intro h
      cases h
      exact ⟨[], rfl⟩
    · rintro ⟨as, h⟩
      cases h
      rfl
  | succ n ih =>
    constructor
    · intro h
      obtain ⟨a, t, ha, h⟩ := bind_eq_ok.mp h
      obtain ⟨as, has⟩ := ih.mp h
      exact ⟨a :: as, by rw [collect, bind_ok ha, bind_ok has]; rfl⟩
    · rintro ⟨as, h⟩
      obtain ⟨a, t, ha, h⟩ := bind_eq_ok.mp h
      obtain ⟨as', u, has, hpure⟩ := bind_eq_ok.mp h
      cases hpure
      rw [times, bind_ok ha]
      exact ih.mpr ⟨as', has⟩

/-- `collect` reads as many values as it was asked for. -/
theorem length_of_collect {g : Reader β ε α} {n : Nat} {s r : List β} {as : List α}
    (h : collect g n s = .ok (as, r)) : as.length = n := by
  induction n generalizing s as with
  | zero =>
    cases h
    rfl
  | succ n ih =>
    obtain ⟨a, t, -, h⟩ := bind_eq_ok.mp h
    obtain ⟨as', t', has, h⟩ := bind_eq_ok.mp h
    cases h
    rw [List.length_cons, ih has]

/-! ## Steady readers -/

/-- The answers of `g` are those of an incremental decoder, and a successful read
takes at least `n` items. -/
structure Reads (n : Nat) (g : Reader β ε α) : Prop where
  suffix : ∀ {s a r}, g s = .ok (a, r) → r <:+ s
  consumes : ∀ {s a r}, g s = .ok (a, r) → r.length + n ≤ s.length
  extend : ∀ {s a r} t, g s = .ok (a, r) → g (s ++ t) = .ok (a, r ++ t)
  reject : ∀ {s e} t, g s = .error (.other e) → g (s ++ t) = .error (.other e)
  retry : ∀ {s t a r}, g s = .error .incomplete → g (s ++ t) = .ok (a, r) → r.length < t.length

theorem Reads.mono {m n : Nat} {g : Reader β ε α} (h : Reads n g) (hm : m ≤ n) : Reads m g :=
  { h with consumes := fun hg => by have := h.consumes hg; omega }

theorem reads_pure (a : α) : Reads 0 (pure a : Reader β ε α) where
  suffix h := by cases h; exact List.suffix_rfl
  consumes h := by cases h; simp
  extend t h := by cases h; rfl
  reject t h := by cases h
  retry h := by cases h

theorem reads_starve (n : Nat) : Reads n (starve : Reader β ε α) where
  suffix h := by cases h
  consumes h := by cases h
  extend t h := by cases h
  reject t h := by cases h
  retry _ h := by cases h

theorem reads_reject (n : Nat) (e : ε) : Reads n (Reader.reject e : Reader β ε α) where
  suffix h := by cases h
  consumes h := by cases h
  extend t h := by cases h
  reject t h := by cases h; rfl
  retry h := by cases h

theorem reads_next : Reads 1 (next : Reader β ε β) where
  suffix {s a r} h := by
    cases s with
    | nil => cases h
    | cons b s => cases h; exact List.suffix_cons _ _
  consumes {s a r} h := by
    cases s with
    | nil => cases h
    | cons b s => cases h; simp
  extend {s a r} t h := by
    cases s with
    | nil => cases h
    | cons b s => cases h; rfl
  reject {s e} t h := by
    cases s with
    | nil => cases h
    | cons b s => cases h
  retry {s t a r} h ht := by
    cases s with
    | nil =>
      cases t with
      | nil => cases ht
      | cons b t => cases ht; simp
    | cons b s => cases h

theorem Reads.bind {m n : Nat} {x : Reader β ε α} {f : α → Reader β ε γ} (hx : Reads m x)
    (hf : ∀ a, Reads n (f a)) : Reads (m + n) (x >>= f) where
  suffix h := by
    obtain ⟨a, t, hxs, hft⟩ := bind_eq_ok.mp h
    exact ((hf a).suffix hft).trans (hx.suffix hxs)
  consumes h := by
    obtain ⟨a, t, hxs, hft⟩ := bind_eq_ok.mp h
    have h1 := hx.consumes hxs
    have h2 := (hf a).consumes hft
    omega
  extend t h := by
    obtain ⟨a, t', hxs, hft⟩ := bind_eq_ok.mp h
    rw [bind_ok (hx.extend t hxs), (hf a).extend t hft]
  reject t h := by
    rcases bind_eq_error.mp h with hxs | ⟨a, t', hxs, hft⟩
    · exact bind_error (hx.reject t hxs)
    · rw [bind_ok (hx.extend t hxs), (hf a).reject t hft]
  retry {s t c r} h ht := by
    obtain ⟨a, t', hxs, hft⟩ := bind_eq_ok.mp ht
    rcases bind_eq_error.mp h with hx0 | ⟨a0, t0, hx0, hf0⟩
    · have h1 := hx.retry hx0 hxs
      have h2 := (hf a).consumes hft
      omega
    · -- the first part already answered on the shorter input, so it answers the same again
      rw [hx.extend t hx0] at hxs
      cases hxs
      exact (hf a).retry hf0 hft

theorem Reads.bind_mono {k m n : Nat} {x : Reader β ε α} {f : α → Reader β ε γ}
    (hx : Reads m x) (hf : ∀ a, Reads n (f a)) (hk : k ≤ m + n) : Reads k (x >>= f) :=
  (hx.bind hf).mono hk

/-- Looking ahead is steady where what follows consumes the item looked at. -/
theorem reads_peek_bind {n : Nat} {f : β → Reader β ε α} (hf : ∀ b, Reads (n + 1) (f b)) :
    Reads (n + 1) (peek >>= f) where
  suffix {s a r} h := by
    cases s with
    | nil => cases h
    | cons b s => exact (hf b).suffix h
  consumes {s a r} h := by
    cases s with
    | nil => cases h
    | cons b s => exact (hf b).consumes h
  extend {s a r} t h := by
    cases s with
    | nil => cases h
    | cons b s => exact (hf b).extend t h
  reject {s e} t h := by
    cases s with
    | nil => cases h
    | cons b s => exact (hf b).reject t h
  retry {s t a r} h ht := by
    cases s with
    | nil =>
      cases t with
      | nil => cases ht
      | cons b t =>
        have hlen := (hf b).consumes (s := b :: t) ht
        omega
    | cons b s => exact (hf b).retry h ht

theorem ensure_bind_of_lt {n : Nat} {g : Reader β ε α} {s : List β} (h : s.length < n) :
    (ensure n >>= fun _ => g) s = .error .incomplete := by
  rw [bind_apply, ensure, if_pos h]

theorem ensure_bind_of_le {n : Nat} {g : Reader β ε α} {s : List β} (h : n ≤ s.length) :
    (ensure n >>= fun _ => g) s = g s := by
  rw [bind_apply, ensure, if_neg (by omega)]

/-- Requiring `n` items is steady where what follows consumes them. -/
theorem reads_ensure_bind {n : Nat} {g : Reader β ε α} (hg : Reads n g) :
    Reads n (ensure n >>= fun _ => g) where
  suffix {s a r} h := by
    by_cases hs : s.length < n
    · rw [ensure_bind_of_lt hs] at h
      cases h
    · rw [ensure_bind_of_le (by omega)] at h
      exact hg.suffix h
  consumes {s a r} h := by
    by_cases hs : s.length < n
    · rw [ensure_bind_of_lt hs] at h
      cases h
    · rw [ensure_bind_of_le (by omega)] at h
      exact hg.consumes h
  extend {s a r} t h := by
    by_cases hs : s.length < n
    · rw [ensure_bind_of_lt hs] at h
      cases h
    · rw [ensure_bind_of_le (by omega)] at h
      rw [ensure_bind_of_le (by simp only [List.length_append]; omega)]
      exact hg.extend t h
  reject {s e} t h := by
    by_cases hs : s.length < n
    · rw [ensure_bind_of_lt hs] at h
      cases h
    · rw [ensure_bind_of_le (by omega)] at h
      rw [ensure_bind_of_le (by simp only [List.length_append]; omega)]
      exact hg.reject t h
  retry {s t a r} h ht := by
    by_cases hst : (s ++ t).length < n
    · rw [ensure_bind_of_lt hst] at ht
      cases ht
    · rw [ensure_bind_of_le (by omega)] at ht
      by_cases hs : s.length < n
      · have hlen := hg.consumes ht
        simp only [List.length_append] at hlen
        omega
      · rw [ensure_bind_of_le (by omega)] at h
        exact hg.retry h ht

theorem takeN_eq_ok {n : Nat} {s p r : List β} :
    (takeN n : Reader β ε (List β)) s = .ok (p, r) ↔ s = p ++ r ∧ p.length = n := by
  rw [takeN]
  split
  · rename_i h
    simp only [reduceCtorEq, false_iff, not_and]
    rintro rfl rfl
    rw [List.length_append] at h
    omega
  · rename_i h
    simp only [Except.ok.injEq, Prod.mk.injEq]
    constructor
    · rintro ⟨rfl, rfl⟩
      exact ⟨(List.take_append_drop n s).symm, by rw [List.length_take]; omega⟩
    · rintro ⟨rfl, rfl⟩
      simp

theorem reads_takeN (n : Nat) : Reads n (takeN n : Reader β ε (List β)) where
  suffix h := by
    obtain ⟨rfl, -⟩ := takeN_eq_ok.mp h
    exact List.suffix_append _ _
  consumes h := by
    obtain ⟨rfl, rfl⟩ := takeN_eq_ok.mp h
    simp [Nat.add_comm]
  extend t h := by
    obtain ⟨rfl, hp⟩ := takeN_eq_ok.mp h
    exact takeN_eq_ok.mpr ⟨List.append_assoc .., hp⟩
  reject {s e} t h := by
    rw [takeN] at h
    split at h <;> cases h
  retry {s t a r} h ht := by
    obtain ⟨hst, ha⟩ := takeN_eq_ok.mp ht
    rw [takeN] at h
    split at h
    · have hlen := congrArg List.length hst
      simp only [List.length_append] at hlen
      omega
    · cases h

theorem reads_times {g : Reader β ε α} (hg : Reads 0 g) (n : Nat) : Reads 0 (times g n) := by
  induction n with
  | zero => exact reads_pure ()
  | succ n ih => exact hg.bind fun _ => ih

theorem reads_collect {g : Reader β ε α} (hg : Reads 0 g) (n : Nat) : Reads 0 (collect g n) := by
  induction n with
  | zero => exact reads_pure []
  | succ n ih => exact hg.bind fun a => ih.bind fun as => reads_pure (a :: as)

/-- A reader that succeeds leaving `r` reads the same value off what it took alone. -/
theorem Reads.exact {n : Nat} {g : Reader β ε α} (hg : Reads n g) {p r : List β} {a : α}
    (h : g (p ++ r) = .ok (a, r)) : g p = .ok (a, []) := by
  cases hp : g p with
  | ok v =>
    obtain ⟨a', r'⟩ := v
    rw [hg.extend r hp, Except.ok.injEq, Prod.mk.injEq] at h
    rw [h.1, List.append_left_eq_self.mp h.2]
  | error e =>
    cases e with
    | incomplete => exact absurd (hg.retry hp h) (Nat.lt_irrefl _)
    | other e => rw [hg.reject r hp] at h; cases h

/-! ## Recursive readers -/

/-- `g` and `h` answer alike on inputs shorter than `n`. -/
def AgreeBelow (n : Nat) (g h : Reader β ε α) : Prop := ∀ s, s.length < n → g s = h s

theorem times_congr {n : Nat} {g h : Reader β ε α} (hg : Reads 0 g) (hgh : AgreeBelow n g h)
    (k : Nat) {s : List β} (hs : s.length < n) : times g k s = times h k s := by
  induction k generalizing s with
  | zero => rfl
  | succ k ih =>
    simp only [times, bind_apply]
    rw [← hgh s hs]
    cases hgs : g s with
    | error e => rfl
    | ok v =>
      obtain ⟨a, r⟩ := v
      have hlen := hg.consumes hgs
      exact ih (by omega)

theorem collect_congr {n : Nat} {g h : Reader β ε α} (hg : Reads 0 g)
    (hgh : AgreeBelow n g h) (k : Nat) {s : List β} (hs : s.length < n) :
    collect g k s = collect h k s := by
  induction k generalizing s with
  | zero => rfl
  | succ k ih =>
    simp only [collect, bind_apply]
    rw [← hgh s hs]
    cases hgs : g s with
    | error e => rfl
    | ok v =>
      obtain ⟨a, r⟩ := v
      have hlen := hg.consumes hgs
      simp only [ih (s := r) (by omega)]

/-- A reader bounded by its recursion depth answers alike for all depths above the
length of the input. -/
theorem fuel_stable {F : Nat → Reader β ε α}
    (hstep : ∀ n m s, AgreeBelow s.length (F n) (F m) → F (n + 1) s = F (m + 1) s)
    {n m : Nat} {s : List β} (hn : s.length < n) (hm : s.length < m) : F n s = F m s := by
  induction n generalizing s m with
  | zero => omega
  | succ n ih =>
    cases m with
    | zero => omega
    | succ m => exact hstep n m s fun t ht => ih (by omega) (by omega)

/-- What holds of a reader at every recursion depth holds of it without a bound. -/
theorem reads_of_fuel {k : Nat} {F : Nat → Reader β ε α} {g : Reader β ε α}
    (hF : ∀ n, Reads k (F n)) (hg : ∀ n s, s.length < n → g s = F n s) : Reads k g where
  suffix {s a r} h := by
    rw [hg _ s (Nat.lt_succ_self _)] at h
    exact (hF _).suffix h
  consumes {s a r} h := by
    rw [hg _ s (Nat.lt_succ_self _)] at h
    exact (hF _).consumes h
  extend {s a r} t h := by
    have hs : s.length < (s ++ t).length + 1 := by simp only [List.length_append]; omega
    rw [hg _ s hs] at h
    rw [hg _ _ (Nat.lt_succ_self _)]
    exact (hF _).extend t h
  reject {s e} t h := by
    have hs : s.length < (s ++ t).length + 1 := by simp only [List.length_append]; omega
    rw [hg _ s hs] at h
    rw [hg _ _ (Nat.lt_succ_self _)]
    exact (hF _).reject t h
  retry {s t a r} h ht := by
    have hs : s.length < (s ++ t).length + 1 := by simp only [List.length_append]; omega
    rw [hg _ s hs] at h
    rw [hg _ _ (Nat.lt_succ_self _)] at ht
    exact (hF _).retry h ht

/-! ## Checked readers

A checker decides whether a frame is complete and how long it is; a parser then
builds the value. Their pairing is a decoder as soon as the parser, on what the
checker accepts, either leaves the same rest or rejects. -/

/-- `prs` accepts only what `chk` accepts, and on that it leaves the same rest or
rejects. -/
structure Mirrors (chk : Reader β ε Unit) (prs : Reader β ε α) : Prop where
  follows : ∀ {s r}, chk s = .ok ((), r) →
    (∃ a, prs s = .ok (a, r)) ∨ ∃ e, prs s = .error (.other e)
  covers : ∀ {s a r}, prs s = .ok (a, r) → chk s = .ok ((), r)

theorem mirrors_pure (a : α) : Mirrors (pure () : Reader β ε Unit) (pure a : Reader β ε α) where
  follows h := by cases h; exact .inl ⟨a, rfl⟩
  covers h := by cases h; rfl

theorem mirrors_starve : Mirrors (starve : Reader β ε Unit) (starve : Reader β ε α) where
  follows h := by cases h
  covers h := by cases h

theorem mirrors_reject (chk : Reader β ε Unit) (e : ε) :
    Mirrors chk (Reader.reject e : Reader β ε α) where
  follows _ := .inr ⟨e, rfl⟩
  covers h := by cases h

theorem mirrors_bind {x : Reader β ε γ} {chk : γ → Reader β ε Unit} {prs : γ → Reader β ε α}
    (h : ∀ c, Mirrors (chk c) (prs c)) : Mirrors (x >>= chk) (x >>= prs) where
  follows hs := by
    obtain ⟨c, t, hx, hc⟩ := bind_eq_ok.mp hs
    rw [bind_ok hx]
    exact (h c).follows hc
  covers hs := by
    obtain ⟨c, t, hx, hc⟩ := bind_eq_ok.mp hs
    rw [bind_ok hx]
    exact (h c).covers hc

theorem Mirrors.bind {chk k : Reader β ε Unit} {prs : Reader β ε γ} {f : γ → Reader β ε α}
    (h : Mirrors chk prs) (hk : ∀ c, Mirrors k (f c)) :
    Mirrors (chk >>= fun _ => k) (prs >>= f) where
  follows hs := by
    obtain ⟨⟨⟩, t, hx, hc⟩ := bind_eq_ok.mp hs
    rcases h.follows hx with ⟨c, hp⟩ | ⟨e, hp⟩
    · rw [bind_ok hp]
      exact (hk c).follows hc
    · exact .inr ⟨e, bind_error hp⟩
  covers hs := by
    obtain ⟨c, t, hx, hc⟩ := bind_eq_ok.mp hs
    rw [bind_ok (h.covers hx)]
    exact (hk c).covers hc

theorem mirrors_map (chk : Reader β ε Unit) (a : α) : Mirrors chk (chk >>= fun _ => pure a) where
  follows hs := .inl ⟨a, by rw [bind_ok hs]; rfl⟩
  covers hs := by
    obtain ⟨⟨⟩, t, hx, hc⟩ := bind_eq_ok.mp hs
    cases hc
    exact hx

theorem Mirrors.times_collect {chk : Reader β ε Unit} {prs : Reader β ε α} (h : Mirrors chk prs)
    (n : Nat) : Mirrors (times chk n) (collect prs n) := by
  induction n with
  | zero => exact mirrors_pure []
  | succ n ih =>
    refine h.bind fun a => ?_
    exact ⟨fun hs => (ih.follows hs).imp (fun ⟨as, hp⟩ => ⟨a :: as, by rw [bind_ok hp]; rfl⟩)
        fun ⟨e, hp⟩ => ⟨e, bind_error hp⟩,
      fun hs => by
        obtain ⟨as, t, hp, hc⟩ := bind_eq_ok.mp hs
        cases hc
        exact ih.covers hp⟩

/-- What a checker accepts as a sequence, the parser reads exactly if it reads every item
where the checker starts it. -/
theorem Mirrors.collect_iff {chk : Reader β ε Unit} {prs : Reader β ε α} (h : Mirrors chk prs)
    {k : Nat} {s r : List β} (hs : times chk k s = .ok ((), r)) :
    (∃ as, collect prs k s = .ok (as, r)) ↔
      ∀ j < k, ∀ us t, collect chk j s = .ok (us, t) → ∃ a t', prs t = .ok (a, t') := by
  induction k generalizing s with
  | zero =>
    cases hs
    exact iff_of_true ⟨[], rfl⟩ fun _ hj => absurd hj (Nat.not_lt_zero _)
  | succ k ih =>
    obtain ⟨⟨⟩, t₀, hchk, htimes⟩ := bind_eq_ok.mp hs
    constructor
    · rintro ⟨as, has⟩ j hj us t hus
      obtain ⟨a, t₁, ha, hrest⟩ := bind_eq_ok.mp has
      obtain ⟨as', t₂, has', hpure⟩ := bind_eq_ok.mp hrest
      cases hpure
      have hsame := h.covers ha
      rw [hchk, Except.ok.injEq, Prod.mk.injEq] at hsame
      obtain ⟨-, rfl⟩ := hsame
      cases j with
      | zero =>
        cases hus
        exact ⟨a, t₀, ha⟩
      | succ j =>
        obtain ⟨⟨⟩, t₃, hchk', hus⟩ := bind_eq_ok.mp hus
        obtain ⟨us', t₄, hus', hpure⟩ := bind_eq_ok.mp hus
        cases hpure
        rw [hchk] at hchk'
        cases hchk'
        exact (ih htimes).mp ⟨as', has'⟩ j (Nat.lt_of_succ_lt_succ hj) us' t hus'
    · intro hitems
      obtain ⟨a, t₁, ha⟩ := hitems 0 (Nat.succ_pos k) [] s rfl
      have hsame := h.covers ha
      rw [hchk, Except.ok.injEq, Prod.mk.injEq] at hsame
      obtain ⟨-, rfl⟩ := hsame
      have hrest : ∃ as, collect prs k t₀ = .ok (as, r) := by
        refine (ih htimes).mpr fun j hj us t hus => ?_
        refine hitems (j + 1) (Nat.succ_lt_succ hj) (() :: us) t ?_
        rw [collect, bind_ok hchk, bind_ok hus]
        rfl
      obtain ⟨as, has⟩ := hrest
      refine ⟨a :: as, ?_⟩
      rw [collect, bind_ok ha, bind_ok has]
      rfl

/-- Within a sequence that a checker accepts, it accepts the item at every start. -/
theorem times_item {chk : Reader β ε Unit} (hchk : Reads 0 chk) {k j : Nat} {s r t : List β}
    {us : List Unit} (hs : times chk k s = .ok ((), r)) (hj : j < k)
    (ht : collect chk j s = .ok (us, t)) :
    ∃ t', chk t = .ok ((), t') ∧ r.length ≤ t'.length ∧ t.length ≤ s.length := by
  induction j generalizing s k us with
  | zero =>
    cases ht
    obtain ⟨k, rfl⟩ := Nat.exists_eq_succ_of_ne_zero (Nat.ne_zero_of_lt hj)
    obtain ⟨⟨⟩, t', hitem, hrest⟩ := bind_eq_ok.mp hs
    exact ⟨t', hitem, ((reads_times hchk k).consumes hrest), le_rfl⟩
  | succ j ih =>
    obtain ⟨k, rfl⟩ := Nat.exists_eq_succ_of_ne_zero (Nat.ne_zero_of_lt hj)
    obtain ⟨⟨⟩, t₀, hitem, hrest⟩ := bind_eq_ok.mp hs
    obtain ⟨⟨⟩, t₁, hitem', hus⟩ := bind_eq_ok.mp ht
    obtain ⟨us', t₂, hus', hpure⟩ := bind_eq_ok.mp hus
    cases hpure
    rw [hitem] at hitem'
    cases hitem'
    obtain ⟨t', hchk', hr, ht⟩ := ih hrest (Nat.lt_of_succ_lt_succ hj) hus'
    have hlen := hchk.consumes hitem
    exact ⟨t', hchk', hr, by omega⟩

/-- A sequence takes at least what its items take. -/
theorem times_length {g : Reader β ε α} (hg : Reads 1 g) {k : Nat} {s r : List β}
    (hs : times g k s = .ok ((), r)) : r.length + k ≤ s.length := by
  induction k generalizing s with
  | zero =>
    cases hs
    exact le_rfl
  | succ k ih =>
    obtain ⟨a, t, hitem, hrest⟩ := bind_eq_ok.mp hs
    have hhead := hg.consumes hitem
    have htail := ih hrest
    omega

/-! ## Faults

A reader that runs on something bounded may stop for one more reason than its errors, a fault.
`mapError` tells its errors beside the fault, and `FaultsOr` says that a fault is all the bound
adds. -/

section Faults

variable {ε' : Type}

/-- A reader with its errors told in another way. -/
def mapError (f : ε → ε') (g : Reader β ε α) : Reader β ε' α := fun s =>
  match g s with
  | .ok x => .ok x
  | .error .incomplete => .error .incomplete
  | .error (.other e) => .error (.other (f e))

variable {f : ε → ε'}

theorem mapError_eq_ok {g : Reader β ε α} {s : List β} {x : α × List β} :
    mapError f g s = .ok x ↔ g s = .ok x := by
  rw [mapError]
  cases g s with
  | ok y => simp
  | error e => cases e <;> simp

theorem mapError_eq_incomplete {g : Reader β ε α} {s : List β} :
    mapError f g s = .error .incomplete ↔ g s = .error .incomplete := by
  rw [mapError]
  cases g s with
  | ok y => simp
  | error e => cases e <;> simp

theorem mapError_other {g : Reader β ε α} {s : List β} {e : ε} (h : g s = .error (.other e)) :
    mapError f g s = .error (.other (f e)) := by
  rw [mapError, h]

theorem mapError_eq_other {g : Reader β ε α} {s : List β} {e' : ε'}
    (h : mapError f g s = .error (.other e')) : ∃ e, g s = .error (.other e) ∧ f e = e' := by
  rw [mapError] at h
  cases hg : g s with
  | ok y => simp [hg] at h
  | error e =>
    cases e with
    | incomplete => simp [hg] at h
    | other e =>
      refine ⟨e, rfl, ?_⟩
      simpa [hg] using h

theorem mapError_bind (x : Reader β ε α) (k : α → Reader β ε γ) :
    mapError f (x >>= k) = mapError f x >>= fun a => mapError f (k a) := by
  funext s
  rw [mapError, bind_apply, bind_apply, mapError]
  cases x s with
  | ok y => rfl
  | error e => cases e <;> rfl

theorem mapError_collect (g : Reader β ε α) (n : Nat) :
    mapError f (collect g n) = collect (mapError f g) n := by
  induction n with
  | zero => rfl
  | succ n ih =>
    rw [collect, collect, mapError_bind]
    refine congrArg (mapError f g >>= ·) (funext fun a => ?_)
    rw [mapError_bind, ih]
    rfl

theorem mapError_times (g : Reader β ε α) (n : Nat) :
    mapError f (times g n) = times (mapError f g) n := by
  induction n with
  | zero => rfl
  | succ n ih => rw [times, times, mapError_bind, ih]

theorem Reads.mapError {n : Nat} {g : Reader β ε α} (hg : Reads n g) :
    Reads n (Reader.mapError f g) where
  suffix h := hg.suffix (mapError_eq_ok.mp h)
  consumes h := hg.consumes (mapError_eq_ok.mp h)
  extend t h := mapError_eq_ok.mpr (hg.extend t (mapError_eq_ok.mp h))
  reject t h := by
    obtain ⟨e, he, rfl⟩ := mapError_eq_other h
    exact mapError_other (hg.reject t he)
  retry h ht := hg.retry (mapError_eq_incomplete.mp h) (mapError_eq_ok.mp ht)

theorem Mirrors.mapError {chk : Reader β ε Unit} {prs : Reader β ε α} (h : Mirrors chk prs) :
    Mirrors (Reader.mapError f chk) (Reader.mapError f prs) where
  follows hs := by
    rcases h.follows (mapError_eq_ok.mp hs) with ⟨a, ha⟩ | ⟨e, he⟩
    · exact .inl ⟨a, mapError_eq_ok.mpr ha⟩
    · exact .inr ⟨f e, mapError_other he⟩
  covers hs := mapError_eq_ok.mpr (h.covers (mapError_eq_ok.mp hs))

/-- `g` answers as `h` does, unless it stops with the fault `e`. -/
def FaultsOr (e : ε) (g h : Reader β ε α) : Prop := ∀ s, g s = .error (.other e) ∨ g s = h s

variable {e : ε} {g h : Reader β ε α}

theorem faultsOr_refl : FaultsOr e g g := fun _ => .inr rfl

/-- Behind the same beginning, a fault of the rest is all that differs. -/
theorem faultsOr_bind {x : Reader β ε γ} {k l : γ → Reader β ε α} (hk : ∀ c, FaultsOr e (k c) (l c)) :
    FaultsOr e (x >>= k) (x >>= l) := by
  intro s
  rw [bind_apply, bind_apply]
  cases x s with
  | ok y => exact hk y.1 y.2
  | error e => exact .inr rfl

theorem FaultsOr.bind {k l : α → Reader β ε γ} (hg : FaultsOr e g h)
    (hk : ∀ a, FaultsOr e (k a) (l a)) : FaultsOr e (g >>= k) (h >>= l) := by
  intro s
  rcases hg s with hfault | hsame
  · exact .inl (bind_error hfault)
  · rw [bind_apply, hsame, ← bind_apply]
    exact faultsOr_bind hk s

theorem FaultsOr.collect (hg : FaultsOr e g h) (n : Nat) :
    FaultsOr e (Reader.collect g n) (Reader.collect h n) := by
  induction n with
  | zero => exact faultsOr_refl
  | succ n ih => exact hg.bind fun a => ih.bind fun as => faultsOr_refl

theorem FaultsOr.times (hg : FaultsOr e g h) (n : Nat) :
    FaultsOr e (Reader.times g n) (Reader.times h n) := by
  induction n with
  | zero => exact faultsOr_refl
  | succ n ih => exact hg.bind fun a => ih

theorem FaultsOr.eq_ok {s : List β} {x : α × List β} (hg : FaultsOr e g h) (hs : g s = .ok x) :
    h s = .ok x := by
  rcases hg s with hfault | hsame
  · rw [hs] at hfault
    cases hfault
  · rw [← hsame, hs]

/-- A parser that mirrors a checker still does if it may fault. -/
theorem Mirrors.faultsOr {chk : Reader β ε Unit} (hm : Mirrors chk h) (hg : FaultsOr e g h) :
    Mirrors chk g where
  follows {s r} hs := by
    rcases hg s with hfault | hsame
    · exact .inr ⟨e, hfault⟩
    · rw [hsame]
      exact hm.follows hs
  covers hs := hm.covers (hg.eq_ok hs)

end Faults

/-- Check the head of the stream, then parse it. -/
def checkThenParse (chk : Reader β ε Unit) (prs : Reader β ε α) (s : List β) :
    Verdict β α (ReadError ε) :=
  match chk s with
  | .ok ((), r) =>
    match prs s with
    | .ok (a, _) => .frame a r
    | .error e => .bad e
  | .error .incomplete => .more
  | .error e => .bad e

section Checked

variable {chk : Reader β ε Unit} {prs : Reader β ε α}

theorem checkThenParse_eq_frame {s r : List β} {a : α} (hf : Mirrors chk prs) :
    checkThenParse chk prs s = .frame a r ↔ chk s = .ok ((), r) ∧ prs s = .ok (a, r) := by
  unfold checkThenParse
  cases hc : chk s with
  | ok v =>
    obtain ⟨⟨⟩, t⟩ := v
    rcases hf.follows hc with ⟨b, hp⟩ | ⟨e, hp⟩
    · simp only [hp, Verdict.frame.injEq, Except.ok.injEq, Prod.mk.injEq, true_and]
      constructor
      · rintro ⟨rfl, rfl⟩
        exact ⟨rfl, rfl, rfl⟩
      · rintro ⟨rfl, rfl, -⟩
        exact ⟨rfl, rfl⟩
    · simp [hp]
  | error e => cases e <;> simp

theorem checkThenParse_eq_more {s : List β} :
    checkThenParse chk prs s = .more ↔ chk s = .error .incomplete := by
  unfold checkThenParse
  cases hc : chk s with
  | ok v =>
    obtain ⟨⟨⟩, t⟩ := v
    cases prs s <;> simp
  | error e => cases e <;> simp

theorem checkThenParse_eq_bad {s : List β} {e : ReadError ε} :
    checkThenParse chk prs s = .bad e ↔
      (chk s = .error e ∧ e ≠ .incomplete) ∨ (∃ r, chk s = .ok ((), r)) ∧ prs s = .error e := by
  unfold checkThenParse
  cases hc : chk s with
  | ok v =>
    obtain ⟨⟨⟩, t⟩ := v
    cases prs s <;> simp
  | error e' =>
    cases e' with
    | incomplete => simp [eq_comm]
    | other m =>
      simp only [Verdict.bad.injEq, Except.error.injEq, reduceCtorEq, exists_false, false_and,
        or_false, iff_self_and]
      rintro rfl
      simp

/-- A steady checker and a steady parser that follows it make a decoder. -/
def checkedDecoder (hchk : Reads 1 chk) (hprs : Reads 1 prs) (hf : Mirrors chk prs)
    (hnil : chk [] = .error .incomplete) :
    Decoder β α (ReadError ε) where
  decode := checkThenParse chk prs
  decode_nil := checkThenParse_eq_more.mpr hnil
  consumes h := by
    obtain ⟨hcs, -⟩ := (checkThenParse_eq_frame hf).mp h
    obtain ⟨p, hp⟩ := hchk.suffix hcs
    refine ⟨p, ?_, hp.symm⟩
    rintro rfl
    have hlen := hchk.consumes hcs
    rw [← hp, List.nil_append] at hlen
    omega
  frame_stable t h := by
    obtain ⟨hcs, hps⟩ := (checkThenParse_eq_frame hf).mp h
    exact (checkThenParse_eq_frame hf).mpr ⟨hchk.extend t hcs, hprs.extend t hps⟩
  bad_stable {s e} t h := by
    rcases checkThenParse_eq_bad.mp h with ⟨hcs, he⟩ | ⟨⟨r, hcs⟩, hps⟩
    · cases e with
      | incomplete => exact absurd rfl he
      | other m => exact checkThenParse_eq_bad.mpr (.inl ⟨hchk.reject t hcs, he⟩)
    · rcases hf.follows hcs with ⟨a, hp⟩ | ⟨m, hp⟩
      · rw [hp] at hps
        cases hps
      · rw [hp] at hps
        cases hps
        exact checkThenParse_eq_bad.mpr (.inr ⟨⟨_, hchk.extend t hcs⟩, hprs.reject t hp⟩)

end Checked

end Reader

end Lib
