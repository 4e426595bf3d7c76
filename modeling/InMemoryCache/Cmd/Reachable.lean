-- SUMMARY: The stores that requests, the sweeper and the evictor can lead to.
import InMemoryCache.Lib.Run
import InMemoryCache.Cmd.Effect
import InMemoryCache.Store.Scan

/-!
# Reachable stores

A client's request changes the store through the command it parses to; the parsers of
the pushing commands reject an empty argument list. With the sweeper and the evictor
these are all the ways a store changes, and every store they lead to is well formed.
-/

namespace InMemoryCache

open Lib Cmd

namespace Command

/-! ## Parsed commands have arguments -/

/-- A pushing command has something to push. -/
def HasArguments (cmd : Command) : Prop :=
  match cmd.keyOp with
  | some (_, op) => op.HasArguments
  | none => True

/-- Every command that the parser answers has arguments. -/
def Parses (parse : List Frame → Outcome String Command) : Prop :=
  ∀ args cmd, parse args = .ok cmd → cmd.HasArguments

theorem parses_wrap {k : α → Command} {parse : List Frame → Outcome String α}
    (h : ∀ args a, parse args = .ok a → (k a).HasArguments) : Parses (wrap k parse) := by
  intro args cmd hcmd
  obtain ⟨a, ha, hk⟩ := Outcome.bind_eq_ok.mp hcmd
  cases hk
  exact h args a ha

theorem parses_plain {k : α → Command} {parse : List Frame → Outcome String α}
    (hk : ∀ a, (k a).HasArguments) : Parses (wrap k parse) :=
  parses_wrap fun _ a _ => hk a

theorem nonEmpty_eq_ok {err : String} {items : List α} (h : nonEmpty err items = .ok ()) :
    items ≠ [] := by
  rintro rfl
  cases h

theorem keyAndArgs_ne_nil {err : String} {args : List Frame} {x : Bytes × List Bytes}
    (h : keyAndArgs err args = .ok x) : x.2 ≠ [] := by
  obtain ⟨key, -, h⟩ := Outcome.bind_eq_ok.mp h
  obtain ⟨items, -, h⟩ := Outcome.bind_eq_ok.mp h
  obtain ⟨_, hitems, h⟩ := Outcome.bind_eq_ok.mp h
  cases h
  exact nonEmpty_eq_ok hitems

/-- A parser that reads a key and more, and wraps it. -/
theorem parses_map {read : List Frame → Outcome String α} {k : α → β} {wrapped : β → Command}
    (h : ∀ args a, read args = .ok a → (wrapped (k a)).HasArguments) :
    Parses (wrap wrapped fun args => read args >>= fun a => pure (k a)) :=
  parses_wrap fun args b hb => by
    obtain ⟨a, ha, hk⟩ := Outcome.bind_eq_ok.mp hb
    cases hk
    exact h args a ha

theorem parses_hset : Parses (wrap .hash HashCmd.parseHset) :=
  parses_wrap fun args cmd h => by
    obtain ⟨key, -, h⟩ := Outcome.bind_eq_ok.mp h
    obtain ⟨fields, -, h⟩ := Outcome.bind_eq_ok.mp h
    obtain ⟨_, hfields, h⟩ := Outcome.bind_eq_ok.mp h
    cases h
    exact nonEmpty_eq_ok hfields

theorem parses_lrange : Parses (wrap .list ListCmd.parseLrange) :=
  parses_wrap fun args cmd h => by
    obtain ⟨key, -, h⟩ := Outcome.bind_eq_ok.mp h
    obtain ⟨start, -, h⟩ := Outcome.bind_eq_ok.mp h
    obtain ⟨stop, -, h⟩ := Outcome.bind_eq_ok.mp h
    obtain ⟨_, -, h⟩ := Outcome.bind_eq_ok.mp h
    cases h
    trivial

theorem hasArguments_ttl (cmd : Ttl) : (ttl cmd).HasArguments := by
  show KeyOp.HasArguments (if cmd.millis then .pttl else .ttl)
  split <;> trivial

theorem parses_parsers [Unicode] (now : Instant) : ∀ e ∈ parsers now, Parses e.2 := by
  have hkey : ∀ {β : Type} {err : String} {k : Bytes → β} {wrapped : β → Command},
      (∀ key, (wrapped (k key)).HasArguments) →
        Parses (wrap wrapped fun args => keyOnly err args >>= fun key => pure (k key)) :=
    fun h => parses_map fun _ key _ => h key
  simp only [parsers, List.forall_mem_cons, List.not_mem_nil, IsEmpty.forall_iff, implies_true,
    and_true]
  refine ⟨parses_plain fun _ => trivial, parses_plain fun _ => trivial,
    parses_plain fun _ => trivial, parses_plain fun _ => trivial,
    parses_plain fun _ => trivial, parses_plain fun _ => trivial,
    parses_plain fun _ => trivial, parses_plain hasArguments_ttl,
    parses_plain hasArguments_ttl, parses_map fun _ _ h => keyAndArgs_ne_nil h,
    parses_map fun _ _ h => keyAndArgs_ne_nil h, hkey fun _ => trivial, hkey fun _ => trivial,
    parses_lrange, parses_hset, parses_map fun _ _ _ => trivial, parses_map fun _ _ _ => trivial,
    hkey fun _ => trivial, parses_map fun _ _ h => keyAndArgs_ne_nil h, hkey fun _ => trivial,
    parses_map fun _ _ _ => trivial, parses_map fun _ _ _ => trivial,
    parses_plain fun _ => trivial, parses_plain fun _ => trivial,
    parses_plain fun _ => trivial, parses_plain fun _ => trivial, ?_, ?_, ?_⟩
  all_goals
    intro args cmd h
    cases h
    trivial

/-- A command that `from_frame` makes has arguments. -/
theorem hasArguments_fromFrame [Unicode] {now : Instant} {frame : Frame} {cmd : Command}
    (h : fromFrame now frame = .ok cmd) : cmd.HasArguments := by
  cases frame with
  | array fs =>
    cases fs with
    | nil => cases h
    | cons f args =>
      obtain ⟨name, hname, -⟩ := Outcome.bind_eq_ok.mp h
      rw [fromFrame_cons hname] at h
      cases hlookup : (parsers now).lookup (toUppercase name) with
      | none =>
        rw [hlookup] at h
        cases h
      | some parse =>
        rw [hlookup] at h
        exact parses_parsers now _ (mem_of_lookup hlookup) args cmd h
  | _ => cases h

end Command

/-! ## Runs -/

namespace Db

variable {cfg : Config}

/-- What changes the store. -/
inductive Event where
  | request (ctx : Ctx) (frame : Frame)
  | sweep (now : Instant) (sampleSize shard : Nat) (draws : Nat → Nat)
  | evict (sampleSize : Nat) (draws : Nat → Nat × Nat)

/-- A request that does not parse changes nothing. -/
def serve [Unicode] (db : Db cfg) : Event → Db cfg
  | .request ctx frame =>
    match Command.fromFrame ctx.clock.now frame with
    | .ok cmd => (cmd.apply ctx db).2
    | _ => db
  | .sweep now sampleSize shard draws => (db.purgeExpiredStep sampleSize now shard draws).2
  | .evict sampleSize draws => (db.evictLruStep sampleSize draws).2

theorem Wellformed.apply {db : Db cfg} (h : db.Wellformed) {cmd : Command} (hcmd : cmd.HasArguments)
    (ctx : Ctx) : (cmd.apply ctx db).2.Wellformed := by
  rw [Command.HasArguments] at hcmd
  cases hop : cmd.keyOp with
  | none =>
    rw [Command.apply_of_no_keyOp hop]
    exact kept_wellformed.del h cmd.delKeys
  | some kop =>
    rw [hop] at hcmd
    rw [Command.apply_of_keyOp hop]
    exact h.performKey kop.1 ctx.toEnv hcmd

theorem Wellformed.serve [Unicode] {db : Db cfg} (h : db.Wellformed) (e : Event) :
    (db.serve e).Wellformed := by
  cases e with
  | request ctx frame =>
    rw [Db.serve]
    split
    · rename_i cmd hcmd
      exact h.apply (Command.hasArguments_fromFrame hcmd) ctx
    · exact h
  | sweep now sampleSize shard draws =>
    exact kept_wellformed.purgeExpiredStep h sampleSize now shard draws
  | evict sampleSize draws => exact kept_wellformed.evictLruStep h sampleSize draws

/-- In every reachable store each key is in the shard `get_shard_index` assigns to it, and in
no other, `KEYS` and `SCAN` list no key twice, and no collection is empty. -/
theorem wellformed_run [Unicode] (es : List Event) :
    let db := runAll serve (empty : Db cfg) es
    (∀ i key, (db.shards i).get? key ≠ none → i = getShardIndex cfg key) ∧
      (∀ pattern now, (db.keys pattern now).Nodup) ∧
      (∀ cursor pattern count typeFilter now,
        (db.scan cursor pattern count typeFilter now).2.Nodup) ∧
      ∀ i key entry, (db.shards i).get? key = some entry → entry.data.isEmpty = false := by
  have h : (runAll serve (empty : Db cfg) es).Wellformed :=
    runAll_invariant (fun _ e h => h.serve e) wellformed_empty es
  exact ⟨h.placed, nodup_keys h.placed, nodup_scan h.placed, h.filled⟩

end Db

end InMemoryCache
