-- SUMMARY: When loading a log rebuilds the values its records were to produce.
import InMemoryCache.Aof.Recovery
import InMemoryCache.Cmd.Values
import Mathlib.Order.Monotone.Basic

/-!
# Rebuilding values

A record that means the same whenever it is executed is replayed to the same effect. A
log of such records is loaded to the values that they lead to, at whatever times they
are replayed.
-/

namespace InMemoryCache

open Lib Leased

namespace Aof

/-- Times of a clock that an `Instant` can hold. -/
structure Clocked (ctx : Nat → Ctx) : Prop where
  monotone : Monotone fun n => (ctx n).clock.now
  valid : ∀ n, (ctx n).clock.now.Valid

theorem clocked_of_eq {ctx : Nat → Ctx} {t : Instant} (h : ∀ n, (ctx n).clock.now = t)
    (ht : t.Valid) : Clocked ctx where
  monotone m n _ := ((h m).trans (h n).symm).le
  valid n := (h n).symm ▸ ht

variable [Unicode] {cfg : Config}

/-- Executed at any time, these records lead from `v` to `w` and date nothing. -/
inductive Rebuilds : Values → List Frame → Values → Prop
  | nil (v : Values) : Rebuilds v [] v
  | cons {v u w : Values} {f : Frame} {fs : List Frame} :
      (∀ t : Instant, t.Valid → Command.MeansAt t f v u) → Rebuilds u fs w →
        Rebuilds v (f :: fs) w

theorem Rebuilds.snoc {v u w : Values} {fs : List Frame} {f : Frame} (h : Rebuilds v fs u)
    (hf : ∀ t : Instant, t.Valid → Command.MeansAt t f u w) : Rebuilds v (fs ++ [f]) w := by
  induction h with
  | nil v => exact .cons hf (.nil w)
  | cons hg _ ih => exact .cons hg (ih hf)

theorem replayFrom_append (ctx : Nat → Ctx) (n count : Nat) (fs gs : List Frame) (db : Db cfg) :
    replayFrom ctx n count (fs ++ gs) db =
      match replayFrom ctx n count fs db with
      | (.ok count, db) => replayFrom ctx (n + fs.length) count gs db
      | (x, db) => (x, db) := by
  induction fs generalizing n count db with
  | nil => rfl
  | cons f fs ih =>
    have hindex : n + (f :: fs).length = n + 1 + fs.length := by
      rw [List.length_cons]
      omega
    rw [List.cons_append, replayFrom, replayFrom, hindex]
    cases Command.fromFrame (ctx n).clock.now f with
    | ok cmd =>
      dsimp only
      cases cmd.apply (ctx n) db with
      | mk reply db' =>
        cases reply with
        | some r => exact ih (n + 1) (count + 1) db'
        | none => rfl
    | err e => exact ih (n + 1) count db
    | panic => rfl

/-- Replay follows the records from the values the store holds. -/
theorem replayFrom_of_rebuilds (hmax : cfg.maxmemory = 0) {ctx : Nat → Ctx} (hctx : Clocked ctx)
    {v w : Values} {fs : List Frame} (h : Rebuilds v fs w) (n count : Nat) {db : Db cfg}
    (hdb : db.Holds (ctx n).clock.now v) :
    ∃ db', replayFrom ctx n count fs db = (.ok (count + fs.length), db') ∧
      db'.Holds (ctx (n + fs.length)).clock.now w := by
  induction h generalizing n count db with
  | nil v => exact ⟨db, rfl, hdb⟩
  | @cons v u w f fs hf _ ih =>
    obtain ⟨cmd, hcmd, hdates, hvalid, rfl⟩ := hf _ (hctx.valid n)
    have hstep := (hdb.apply hmax le_rfl hdates).mono (hctx.monotone (Nat.le_succ n))
    have hreply := hdb.apply_ne_none le_rfl hdates hvalid
    have hlength : (f :: fs).length = 1 + fs.length := by
      rw [List.length_cons, Nat.add_comm]
    rw [replayFrom, hcmd, hlength, ← Nat.add_assoc, ← Nat.add_assoc]
    dsimp only
    cases happly : cmd.apply (ctx n) db with
    | mk reply db' =>
      rw [happly] at hstep hreply
      cases reply with
      | none => exact absurd rfl hreply
      | some r => exact ih (n + 1) (count + 1) hstep

theorem load_start {log : List Frame} (h : ∀ f ∈ log, Encodable f) (ctx : Nat → Ctx) (db : Db cfg) :
    load ctx (start [] log) db = replay ctx log db := by
  rw [start_eq, List.nil_append]
  exact load_of_replays (frames_flatMap h) ctx db

/-- Loading the file of a log rebuilds the values its records lead to. -/
theorem load_of_rebuilds (hmax : cfg.maxmemory = 0) {ctx : Nat → Ctx} (hctx : Clocked ctx)
    {log : List Frame} (hlog : ∀ f ∈ log, Encodable f) {w : Values}
    (h : Rebuilds (fun _ => none) log w) :
    ∃ db, load ctx (start [] log) (Db.empty : Db cfg) = (.ok log.length, db) ∧
      db.Holds (ctx log.length).clock.now w := by
  have hempty : (Db.empty : Db cfg).Holds (ctx 0).clock.now fun _ => none := Db.holds_empty _
  obtain ⟨db, hreplay, hholds⟩ := replayFrom_of_rebuilds hmax hctx h 0 0 hempty
  rw [Nat.zero_add] at hreplay hholds
  exact ⟨db, (load_start hlog ctx Db.empty).trans hreplay, hholds⟩

end Aof

end InMemoryCache
