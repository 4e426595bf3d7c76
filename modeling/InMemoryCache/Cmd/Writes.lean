-- SUMMARY: Only write commands change what is visible, and only under the keys they name.
import InMemoryCache.Cmd.Effect
import InMemoryCache.Store.Same

/-!
# Writes

The append-only file records the commands for which `is_write` holds, so a command for
which it does not may not change what clients see, nor may one that answers an error.
Some do touch the store: a lookup removes an expired entry, and a push removes one before
it can fail. None of it is visible.
-/

namespace InMemoryCache

open Lib Leased Cmd

/-! ## Operations that fail, read, or edit a collection -/

/-- The answer is an error. -/
def Answer.Failed : Answer → Prop
  | .value (.error _) | .count (.error _) | .items (.error _) => True
  | .members (.error _) | .pairs (.error _) | .found (.error _) => True
  | _ => False

/-- The reply that a command makes from the answer of its operation; evictions and sweeps are
no commands. -/
def Answer.reply : Answer → Option Frame
  | .done => some (.simple "OK")
  | .value r => some (Frame.ofResult Frame.ofValue r)
  | .count r => some (Frame.ofResult Frame.ofUsize r)
  | .items r | .members r => some (Frame.ofResult Frame.ofBulks r)
  | .pairs r => some (Frame.ofResult Frame.ofPairs r)
  | .found r => some (Frame.ofResult Frame.ofBool r)
  | .expired r => r.map Frame.ofBool
  | .time i => some (.integer i)
  | .sampled _ | .evicted _ => none

/-- A reply is an error only if the answer is one. -/
theorem Answer.failed_of_reply {a : Answer} {e : String} (h : a.reply = some (.error e)) :
    a.Failed := by
  cases a with
  | value r =>
    cases r with
    | ok v => cases v <;> cases h
    | error e => trivial
  | expired r => cases r <;> cases h
  | count r | items r | members r | pairs r | found r =>
    cases r with
    | ok a => cases h
    | error e => trivial
  | done | time i | sampled r | evicted r => cases h

/-- The operations that only read. -/
def KeyOp.Reads : KeyOp → Prop
  | .get | .lrange _ _ | .hget _ | .hgetall | .smembers | .sismember _ | .ttl | .pttl => True
  | _ => False

/-- The operations that edit the collection they find. -/
def KeyOp.Edits : KeyOp → Prop
  | .lpush _ | .rpush _ | .lpop | .rpop | .hset _ | .hdel _ | .sadd _ | .srem _ => True
  | _ => False

namespace Item

/-- A new collection has the type that the edit expects, so only an old item can be refused. -/
theorem create_failed {empty : DataType} {edit : DataType → Option (Edit Nat)} {s : Option Item}
    (htype : (edit empty).isSome) (h : (Answer.count (create empty edit s).1).Failed) :
    (create empty edit s).2 = s := by
  cases s with
  | none =>
    obtain ⟨e, he⟩ := Option.isSome_iff_exists.mp htype
    rw [create, Option.getD_none] at h
    dsimp only at h
    rw [he] at h
    exact h.elim
  | some it =>
    rw [create, Option.getD_some] at h ⊢
    cases he : edit it.value with
    | none => rfl
    | some e =>
      rw [he] at h
      exact h.elim

theorem shrink_failed (wrap : Except String ρ → Answer) (hwrap : ∀ r, ¬ (wrap (.ok r)).Failed)
    {absent : ρ} {edit : DataType → Option (Edit ρ)} {s : Option Item}
    (h : (wrap (shrink absent edit s).1).Failed) : (shrink absent edit s).2 = s := by
  cases s with
  | none => exact absurd h (hwrap absent)
  | some it =>
    rw [shrink] at h ⊢
    cases he : edit it.value with
    | none => rfl
    | some e =>
      rw [he] at h
      exact absurd h (hwrap e.result)

theorem deadline_create {empty : DataType} {edit : DataType → Option (Edit Nat)} {it it' : Item}
    (h : (create empty edit (some it)).2 = some it') : it'.deadline = it.deadline := by
  rw [create, Option.getD_some] at h
  cases he : edit it.value with
  | none =>
    rw [he, Option.some.injEq] at h
    rw [← h]
  | some e =>
    rw [he, Option.some.injEq] at h
    rw [← h]

theorem deadline_shrink {absent : ρ} {edit : DataType → Option (Edit ρ)} {it it' : Item}
    (h : (shrink absent edit (some it)).2 = some it') : it'.deadline = it.deadline := by
  rw [shrink] at h
  cases he : edit it.value with
  | none =>
    rw [he, Option.some.injEq] at h
    rw [← h]
  | some e =>
    rw [he] at h
    dsimp only at h
    split at h
    · cases h
    · rw [Option.some.injEq] at h
      rw [← h]

end Item

namespace KeyOp

variable {now : Instant} {s : Option Item}

theorem onItem_reads {op : KeyOp} (h : op.Reads) : (op.onItem now s).2 = s := by
  cases op with
  | get => exact inspect_snd _ _ s
  | lrange start stop => exact inspect_snd _ _ s
  | hget field => exact inspect_snd _ _ s
  | hgetall => exact inspect_snd _ _ s
  | smembers => exact inspect_snd _ _ s
  | sismember member => exact inspect_snd _ _ s
  | ttl => exact timeLeft_snd _ now s
  | pttl => exact timeLeft_snd _ now s
  | _ => exact h.elim

theorem onItem_failed {op : KeyOp} (h : (op.onItem now s).1.Failed) : (op.onItem now s).2 = s := by
  cases op with
  | lpush els => exact Item.create_failed rfl h
  | rpush els => exact Item.create_failed rfl h
  | hset fields => exact Item.create_failed rfl h
  | sadd members => exact Item.create_failed rfl h
  | lpop => exact Item.shrink_failed .value (fun _ hr => hr) h
  | rpop => exact Item.shrink_failed .value (fun _ hr => hr) h
  | hdel fields => exact Item.shrink_failed .count (fun _ hr => hr) h
  | srem members => exact Item.shrink_failed .count (fun _ hr => hr) h
  | set value expiresAt => exact h.elim
  | expire duration => exact h.elim
  | _ => exact onItem_reads trivial

theorem onItem_deadline {op : KeyOp} (hop : op.Edits) {it it' : Item}
    (h : (op.onItem now (some it)).2 = some it') : it'.deadline = it.deadline := by
  cases op with
  | lpush els => exact Item.deadline_create h
  | rpush els => exact Item.deadline_create h
  | hset fields => exact Item.deadline_create h
  | sadd members => exact Item.deadline_create h
  | lpop => exact Item.deadline_shrink h
  | rpop => exact Item.deadline_shrink h
  | hdel fields => exact Item.deadline_shrink h
  | srem members => exact Item.deadline_shrink h
  | _ => exact hop.elim

end KeyOp

/-! ## Commands -/

namespace Command

variable {cfg : Config}

/-- The reply of a command is made from what its operation answers. -/
theorem reply_of_keyOp {cmd : Command} {key : Bytes} {op : KeyOp}
    (h : cmd.keyOp = some (key, op)) (ctx : Ctx) (db : Db cfg) :
    (cmd.apply ctx db).1 = (db.performKey key ctx.toEnv op).1.reply := by
  cases cmd with
  | get cmd => cases h; rfl
  | set cmd => cases h; rfl
  | expire cmd => cases h; rfl
  | ttl cmd =>
    cases h
    simp only [apply, always, Ttl.apply, respond]
    split <;> rfl
  | list cmd => cases cmd <;> (cases h; rfl)
  | hash cmd => cases cmd <;> (cases h; rfl)
  | setCmd cmd => cases cmd <;> (cases h; rfl)
  | _ => cases h

/-- Only a failed operation is answered with an error. -/
theorem failed_of_error {cmd : Command} {key : Bytes} {op : KeyOp} {ctx : Ctx} {db : Db cfg}
    {e : String} (hop : cmd.keyOp = some (key, op)) (h : (cmd.apply ctx db).1 = some (.error e)) :
    (db.performKey key ctx.toEnv op).1.Failed := by
  rw [reply_of_keyOp hop] at h
  exact Answer.failed_of_reply h

/-- A command that is not recorded performs nothing but a reading operation. -/
theorem reads_of_not_isWrite {cmd : Command} {key : Bytes} {op : KeyOp}
    (hop : cmd.keyOp = some (key, op)) (h : cmd.isWrite = false) : op.Reads := by
  cases cmd with
  | get cmd =>
    cases hop
    trivial
  | ttl cmd =>
    cases hop
    split <;> trivial
  | list cmd =>
    cases cmd with
    | lrange k start stop =>
      cases hop
      trivial
    | _ => cases h
  | hash cmd =>
    cases cmd with
    | hget k field | hgetall k =>
      cases hop
      trivial
    | _ => cases h
  | setCmd cmd =>
    cases cmd with
    | smembers k | sismember k member =>
      cases hop
      trivial
    | _ => cases h
  | set cmd | expire cmd => cases h
  | _ => cases hop

/-- Without an operation on a key, only `DEL` changes the store, and it never fails. -/
theorem delKeys_eq_nil {cmd : Command} {ctx : Ctx} {db : Db cfg}
    (h : cmd.isWrite = false ∨ ∃ e, (cmd.apply ctx db).1 = some (.error e)) : cmd.delKeys = [] := by
  cases cmd with
  | del cmd =>
    obtain h | ⟨e, h⟩ := h
    · cases h
    · cases h
  | _ => rfl

/-- A command that is not recorded, or fails, has no effect on what is visible. -/
theorem effect_eq_self {cmd : Command} {ctx : Ctx} {db : Db cfg}
    (h : cmd.isWrite = false ∨ ∃ e, (cmd.apply ctx db).1 = some (.error e)) (hmax : cfg.maxmemory = 0)
    (key : Bytes) :
    cmd.effect ctx.clock.now key (db.item ctx.clock.now key) = db.item ctx.clock.now key := by
  rw [effect]
  cases hop : cmd.keyOp with
  | none =>
    dsimp only
    rw [delKeys_eq_nil h]
    exact if_neg List.not_mem_nil
  | some kop =>
    obtain ⟨k, op⟩ := kop
    dsimp only
    split
    · rename_i hk
      subst hk
      -- a push that fails has removed an expired entry at most, which was not visible
      obtain hread | ⟨e, herror⟩ := h
      · exact KeyOp.onItem_reads (reads_of_not_isWrite hop hread)
      · have hfailed := failed_of_error hop herror
        rw [Db.performKey_eq, Db.reserved_of_unlimited hmax] at hfailed
        have hagree := op.onCell_refines key ctx.clock (db.cellAt (Db.getShardIndex cfg key) key)
        exact KeyOp.onItem_failed (hagree.result ▸ hfailed)
    · rfl

/-- Only a recorded command that succeeds changes what is visible, it changes nothing but
keys it names, and editing a live collection leaves its deadline as it is. -/
theorem only_writes_write (hmax : cfg.maxmemory = 0) (cmd : Command) (ctx : Ctx) (db : Db cfg) :
    (cmd.isWrite = false ∨ (∃ e, (cmd.apply ctx db).1 = some (.error e)) →
      ∀ key, (cmd.apply ctx db).2.item ctx.clock.now key = db.item ctx.clock.now key) ∧
    (∀ key, key ∉ cmd.names →
      (cmd.apply ctx db).2.item ctx.clock.now key = db.item ctx.clock.now key) ∧
    ∀ key op, cmd.keyOp = some (key, op) → op.Edits →
      ∀ it it', db.item ctx.clock.now key = some it →
        (cmd.apply ctx db).2.item ctx.clock.now key = some it' → it'.deadline = it.deadline := by
  have hself : ∀ key, visible ctx.clock.now (db.item ctx.clock.now key) =
      db.item ctx.clock.now key := fun key => visible_visible le_rfl _
  refine ⟨fun h key => ?_, fun key h => ?_, fun key op hop hedits it it' hit hit' => ?_⟩
  · rw [item_apply hmax, effect_eq_self h hmax, hself]
  · rw [item_apply hmax, effect_of_not_mem h, hself]
  · rw [item_apply hmax, effect, hop, hit] at hit'
    dsimp only at hit'
    rw [if_pos rfl] at hit'
    exact KeyOp.onItem_deadline hedits (Option.filter_eq_some_iff.mp hit').1

/-- A push to a key that holds a string is refused, and the string is left. -/
theorem only_writes_write_refused :
    let db := (Db.empty : Db (.standard 0 List.length)).set [107] [118] none (Ctx.reading 0).toEnv
    let cmd : Command := .list (.lpush [107] [[97]])
    (cmd.apply (.reading 1) db).1 = some (.error wrongTypeErr) ∧
      (cmd.apply (.reading 1) db).2.item 1 [107] = db.item 1 [107] :=
  ⟨by decide +kernel, (only_writes_write rfl _ _ _).1 (.inr ⟨wrongTypeErr, by decide +kernel⟩) [107]⟩

end Command

end InMemoryCache
