-- SUMMARY: What TTL and PTTL answer, and when the milliseconds left fit their reply.
import InMemoryCache.Store.Refinement

/-!
# TTL and PTTL

Both commands convert the same remaining duration, `TTL` to whole seconds and `PTTL` to
whole milliseconds, and cast the number to `i64`. The seconds to any deadline an `Instant`
can hold fit; the milliseconds do not always, and then `PTTL` answers their low 64 bits.
-/

namespace InMemoryCache

open Lib

/-- The deadlines that `SET EX` and `PX`, `EXPIRE` and `PEXPIRE` install. -/
def Instant.Installed (d : Instant) : Prop :=
  ∃ now n, n < U64.size ∧
    (Instant.add now (Duration.fromSecs n) = some d ∨
      Instant.add now (Duration.fromMillis n) = some d)

theorem Instant.valid_of_add {t d : Instant} {duration : Duration}
    (h : Instant.add t duration = some d) : d.Valid := by
  rw [Instant.add_eq_some h]
  exact Instant.add_ne_none.mp fun hnone => by
    rw [h] at hnone
    cases hnone

theorem Instant.Installed.valid {d : Instant} (h : d.Installed) : d.Valid := by
  obtain ⟨now, n, -, hadd | hadd⟩ := h
  · exact Instant.valid_of_add hadd
  · exact Instant.valid_of_add hadd

/-- The seconds to a deadline fit an `i64`. -/
theorem Instant.Valid.asSecs_lt {d : Instant} (h : d.Valid) (now : Instant) :
    Duration.asSecs (d - now) < 2 ^ 63 :=
  (Nat.div_le_div_right (Nat.sub_le d now)).trans_lt h

theorem Duration.asSecs_eq (d : Duration) : d.asSecs = d.asMillis / 1000 := by
  rw [asSecs, asMillis, Nat.div_div_eq_div_mul]
  rfl

/-- The cast of a number to `i64` keeps it exactly if it is below 2^63. -/
theorem toInt_ofNat_iff {n : Nat} : (Int64.ofNat n).toInt = n ↔ n < 2 ^ 63 := by
  constructor
  · intro h
    have hhigh := (Int64.ofNat n).toInt_lt
    omega
  · exact Int64.toInt_ofNat_of_lt

namespace Db

variable {cfg : Config}

section

variable {db : Db cfg} {key : Bytes} {env : Env}

theorem ttl_eq : (db.ttl key env).1 =
    (Item.timeLeft Duration.asSecs env.clock.now (db.item env.clock.now key)).1 :=
  Cell.agree_remaining.result

theorem pttl_eq : (db.pttl key env).1 =
    (Item.timeLeft Duration.asMillis env.clock.now (db.item env.clock.now key)).1 :=
  Cell.agree_remaining.result

/-- `TTL` answers -2 exactly if nothing is visible under the key. -/
theorem ttl_eq_neg_two
    (h : ∀ it d, db.item env.clock.now key = some it → it.deadline = some d → d.Valid) :
    (db.ttl key env).1 = -2 ↔ db.item env.clock.now key = none := by
  rw [ttl_eq]
  cases hitem : db.item env.clock.now key with
  | none => exact iff_of_true rfl rfl
  | some it =>
    refine iff_of_false ?_ (Option.some_ne_none it)
    rw [Item.timeLeft]
    cases hdeadline : it.deadline with
    | none =>
      show (-1 : Int64) ≠ -2
      decide
    | some d =>
      intro hreply
      have hfits := toInt_ofNat_iff.mpr ((h it d hitem hdeadline).asSecs_lt env.clock.now)
      have hneg : (-2 : Int64).toInt = -2 := rfl
      dsimp only at hreply
      rw [hreply] at hfits
      omega

end

/-- Both answer -2 without a live key and -1 without a deadline. Otherwise `PTTL` answers the
whole milliseconds left, and `TTL` these divided by 1000. -/
def TimeLeftExact (db : Db cfg) (key : Bytes) (env : Env) : Prop :=
  match db.item env.clock.now key with
  | none => (db.ttl key env).1 = -2 ∧ (db.pttl key env).1 = -2
  | some it =>
    match it.deadline with
    | none => (db.ttl key env).1 = -1 ∧ (db.pttl key env).1 = -1
    | some d =>
      (db.pttl key env).1.toInt = Duration.asMillis (d - env.clock.now) ∧
        (db.ttl key env).1.toInt = (db.pttl key env).1.toInt / 1000

/-- The replies are exact if and only if the milliseconds left fit an `i64`. -/
theorem timeLeft_exact_iff (db : Db cfg) (key : Bytes) (env : Env)
    (h : ∀ it d, db.item env.clock.now key = some it → it.deadline = some d → d.Installed) :
    db.TimeLeftExact key env ↔
      ∀ it d, db.item env.clock.now key = some it → it.deadline = some d →
        Duration.asMillis (d - env.clock.now) < 2 ^ 63 := by
  rw [TimeLeftExact, ttl_eq, pttl_eq]
  cases hitem : db.item env.clock.now key with
  | none =>
    refine iff_of_true ⟨rfl, rfl⟩ fun it d hsome => ?_
    cases hsome
  | some it =>
    simp only [Item.timeLeft]
    cases hdeadline : it.deadline with
    | none =>
      refine iff_of_true ⟨rfl, rfl⟩ fun it' d hsome hd => ?_
      cases hsome
      rw [hdeadline] at hd
      cases hd
    | some d =>
      dsimp only
      have hsecs := toInt_ofNat_iff.mpr ((h it d hitem hdeadline).valid.asSecs_lt env.clock.now)
      rw [hsecs, Duration.asSecs_eq, toInt_ofNat_iff]
      constructor
      · rintro ⟨hfits, -⟩ it' d' hsome hd'
        cases hsome
        rw [hdeadline] at hd'
        cases hd'
        exact hfits
      · intro hfits
        have hmillis := hfits it d rfl hdeadline
        rw [toInt_ofNat_iff.mpr hmillis]
        exact ⟨hmillis, rfl⟩

/-- `SET k v` and `EXPIRE k 1`, half a millisecond later. -/
theorem timeLeft_exact_second :
    let env : Nat → Env := fun t =>
      { clock := { now := t, millis := 0 }, draws := fun _ _ => (0, 0) }
    let db := (empty : Db (.standard 0 List.length)).run
      [(env 0, .on [107] (.set [118] none)), (env 0, .on [107] (.expire (Duration.fromSecs 1)))]
    db.TimeLeftExact [107] (env 500000) ∧ (db.pttl [107] (env 500000)).1 = 999 := by
  intro env db
  have hitem : db.item (env 500000).clock.now [107] =
      some { value := .string [118], deadline := some (Duration.fromSecs 1) } := by
    decide +kernel
  refine ⟨(timeLeft_exact_iff db [107] (env 500000) fun it d hsome hd => ?_).mpr
    fun it d hsome hd => ?_, by decide +kernel⟩
  · rw [hitem] at hsome
    cases hsome
    cases hd
    exact ⟨0, 1, by decide, .inl rfl⟩
  · rw [hitem] at hsome
    cases hsome
    cases hd
    decide +kernel

/-- `EXPIRE k 9223372036854776`: the milliseconds left do not fit, and `PTTL` answers a
negative number that is no code. -/
theorem pttl_wraps :
    let env : Env := { clock := { now := 0, millis := 0 }, draws := fun _ _ => (0, 0) }
    let db := (empty : Db (.standard 0 List.length)).run
      [(env, .on [107] (.set [118] none)),
        (env, .on [107] (.expire (Duration.fromSecs 9223372036854776)))]
    Instant.add 0 (Duration.fromSecs 9223372036854776) =
        some (Duration.fromSecs 9223372036854776) ∧
      (db.ttl [107] env).1 = 9223372036854776 ∧ (db.pttl [107] env).1 = -9223372036854775616 ∧
      ¬ db.TimeLeftExact [107] env := by
  intro env db
  have hitem : db.item env.clock.now [107] = some
      { value := .string [118], deadline := some (Duration.fromSecs 9223372036854776) } := by
    decide +kernel
  have hpttl : (db.pttl [107] env).1 = -9223372036854775616 := by decide +kernel
  refine ⟨by decide, by decide +kernel, hpttl, fun hexact => ?_⟩
  rw [TimeLeftExact, hitem] at hexact
  have hmillis := hexact.1
  rw [hpttl] at hmillis
  exact absurd hmillis (by decide +kernel)

end Db

end InMemoryCache
