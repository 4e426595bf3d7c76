-- SUMMARY: What holds of the store in every interleaving of its methods' sections.
import InMemoryCache.Store.Invariant
import InMemoryCache.Store.Threads

/-!
# Interleavings

Threads call the methods of `Db`, and their sections interleave in any order. Every run has a
history of atomic steps that explains what the calls returned. In every state keys are in
their own shards and collections are not empty. The memory counter is right in every state
exactly if no section creates a collection. `KEYS` reads one shard after the other and lists
what stays under its key all the while.
-/

namespace InMemoryCache

open Lib

variable {cfg : Config}

namespace Db

/-- The store with its threads. -/
abbrev Pool (cfg : Config) : Type := Threads (Db cfg) (Task cfg) Call Answer

abbrev PoolEvent : Type := Threads.Event Call Input

/-- A run of calls and sections, in any order, on an empty store. -/
def interleave (es : List PoolEvent) : Pool cfg :=
  runAll (Threads.perform (methods cfg)) (Threads.start empty) es

-- ---------------------------------------------------------------------------
-- Linearizability
-- ---------------------------------------------------------------------------

/-- Every interleaving has a history: the calls and returns that the clients saw, with atomic
steps in between that lead from the empty store to the store there is. The steps between a
call and its return are its thread's, read from outside what the thread's sections were given,
and explain what the call returned; those of a call under way are the first ones of such. -/
theorem interleave_linearizable (es : List PoolEvent) :
    ∃ history : List (Nat × Mark Call (Atom cfg) (Seen cfg) Answer),
      visible history = (interleave es : Pool cfg).trace ∧
        Acts Atom.act empty (actions history) (interleave es : Pool cfg).shared ∧
        (∀ t a b, (t, .act a b) ∈ history → ∃ d, .step t d ∈ es ∧ a.Reads d) ∧
        ∀ t, ∃ cur, Told Explains (ofThread history t) cur ∧
          Linear.Matches Progress ((interleave es : Pool cfg).running t) cur := by
  obtain ⟨history, h⟩ := (linear_methods cfg).exists_history empty es
  exact ⟨history, h.seen, h.acted, h.read, h.told⟩

-- ---------------------------------------------------------------------------
-- What a section keeps
-- ---------------------------------------------------------------------------

/-- The operation on a key that a task's next section may perform. -/
def Task.operation : Task cfg → Option (Bytes × KeyOp × Instant)
  | .get key now | .getWrite key now => some (key, .get, now)
  | .insert c => some (c.key, .set c.value c.expiresAt, c.clock.now)
  | .on key op now => some (key, op, now)
  | _ => none

/-- The key that a task's next section may remove, for `DEL` or for the evictor. -/
def Task.removal : Task cfg → Option Bytes
  | .remove _ _ key | .del (key :: _) _ => some key
  | _ => none

section Section

variable {P : Db cfg → Prop} {db : Db cfg} {task : Task cfg}

theorem removeOldest_keeps {i : Fin cfg.numShards} {key : Bytes}
    (hdel : P (db.lockedAt i key (Cell.del key)).2)
    (hmetrics : ∀ {s : Db cfg} (m : Metrics), P s → P { s with metrics := m }) :
    P (db.removeOldest i key).2 := by
  rw [removeOldest]
  dsimp only
  split
  · exact hmetrics _ hdel
  · exact hdel

/-- A section keeps what its operation or its removal keeps, and the sweeper's removals. -/
theorem section_keeps (d : Input) (h : P db)
    (hon : ∀ key op clock, task.operation = some (key, op, clock.now) →
      P (db.locked key fun c => op.onCell key clock c).2)
    (hdel : ∀ i key, task.removal = some key → P (db.lockedAt i key (Cell.del key)).2)
    (hmetrics : ∀ {s : Db cfg} (m : Metrics), P s → P { s with metrics := m })
    (hpurge : ∀ i now keys, P (db.purgeRemove i now keys)) : P (task.step d db).1 := by
  cases task with
  | get key now =>
    rw [Task.step]
    cases hread : db.getRead key now d.millis with
    | mk r db' =>
      have hlocked := locked_getRead hread
      cases r with
      | none =>
        rw [Option.elim_none] at hlocked
        exact hlocked ▸ h
      | some r =>
        have hafter := hon key .get { now := now, millis := d.millis } rfl
        rw [Option.elim_some] at hlocked
        rwa [hlocked] at hafter
  | getWrite key now =>
    have hafter := hon key .get { now := now, millis := d.millis } rfl
    rwa [locked_getWrite key now d.millis db] at hafter
  | room c =>
    rw [Task.step]
    split <;> exact h
  | sample after left oldest =>
    cases left with
    | succ left => exact h
    | zero =>
      rw [Task.step]
      split <;> exact h
  | remove after i key => exact removeOldest_keeps (hdel i key rfl) hmetrics
  | insert c => exact hon c.key (.set c.value c.expiresAt) c.clock rfl
  | on key op now => exact hon key op { now := now, millis := d.millis } rfl
  | del keys removed =>
    cases keys with
    | nil => exact h
    | cons key keys => exact hdel _ key rfl
  | purgeSample sampleSize i now =>
    rw [Task.step]
    dsimp only
    split <;> exact h
  | purgeRemove sampled i now keys => exact hpurge i now keys
  | keys pattern now i result =>
    rw [Task.step]
    split <;> exact h

/-- How a task goes on after a section. -/
inductive Follows (d : Input) (db : Db cfg) : Task cfg → Task cfg → Prop where
  | getWrite (key now) : Follows d db (.get key now) (.getWrite key now)
  | full (c : Setting) (hmax : cfg.maxmemory > 0)
      (h : ((db.currentMemory + d.underway) % U64.size + c.newSize) % U64.size > cfg.maxmemory) :
      Follows d db (.room c) (.sample (some c) lruSampleSize (none, U64.size - 1))
  | fits (c : Setting) (h : cfg.maxmemory > 0 →
      ((db.currentMemory + d.underway) % U64.size + c.newSize) % U64.size ≤ cfg.maxmemory) :
      Follows d db (.room c) (.insert c)
  | sample (after left oldest) :
      Follows d db (.sample after (left + 1) oldest)
        (.sample after left (db.sampleOnce d.draw oldest))
  | found (after i key accessed) :
      Follows d db (.sample after 0 (some (i, key), accessed)) (.remove after i key)
  | unfound (c accessed) : Follows d db (.sample (some c) 0 (none, accessed)) (.insert c)
  | removed (c i key) (h : (db.removeOldest i key).1 = true) :
      Follows d db (.remove (some c) i key) (.room c)
  | gone (c i key) (h : (db.removeOldest i key).1 = false) :
      Follows d db (.remove (some c) i key) (.insert c)
  | del (key todo removed n) : Follows d db (.del (key :: todo) removed) (.del todo (removed + n))
  | purgeRemove (sampleSize i now sampled expiredKeys) :
      Follows d db (.purgeSample sampleSize i now) (.purgeRemove sampled i now expiredKeys)
  | keys (pattern now i result more) :
      Follows d db (.keys pattern now i result) (.keys pattern now (i + 1) (result ++ more))

theorem follows_of_step {d : Input} {next : Task cfg} (h : (task.step d db).2 = .inl next) :
    Follows d db task next := by
  cases task with
  | get key now =>
    rw [Task.step] at h
    split at h <;> cases h
    exact .getWrite key now
  | room c =>
    rw [Task.step] at h
    split at h
    · rename_i hfull
      cases h
      exact .full c hfull.1 hfull.2
    · rename_i hroom
      cases h
      exact .fits c fun hmax => Nat.le_of_not_gt fun hfull => hroom ⟨hmax, hfull⟩
  | sample after left oldest =>
    cases left with
    | succ left =>
      cases h
      exact .sample after left oldest
    | zero =>
      obtain ⟨oldest, accessed⟩ := oldest
      cases oldest with
      | some best =>
        cases h
        exact .found after best.1 best.2 accessed
      | none =>
        cases after with
        | none => cases h
        | some c =>
          cases h
          exact .unfound c accessed
  | remove after i key =>
    change evicted (db.removeOldest i key).1 after = .inl next at h
    cases after with
    | none => cases h
    | some c =>
      cases hremoved : (db.removeOldest i key).1 with
      | true =>
        rw [hremoved] at h
        cases h
        exact .removed c i key hremoved
      | false =>
        rw [hremoved] at h
        cases h
        exact .gone c i key hremoved
  | del keys removed =>
    cases keys with
    | nil => cases h
    | cons key todo =>
      cases h
      exact .del key todo removed _
  | purgeSample sampleSize i now =>
    rw [Task.step] at h
    dsimp only at h
    split at h <;> cases h
    exact .purgeRemove sampleSize i now _ _
  | keys pattern now i result =>
    rw [Task.step] at h
    split at h <;> cases h
    exact .keys pattern now i result _
  | getWrite | insert | on | purgeRemove => cases h

/-- Only a `GET` and a `SET` perform their operation in a later section than the first. -/
theorem operation_next {d : Input} {next : Task cfg} (h : (task.step d db).2 = .inl next)
    {key : Bytes} {op : KeyOp} {now : Instant} (hop : next.operation = some (key, op, now)) :
    op = .get ∨ ∃ value expiresAt, op = .set value expiresAt := by
  cases follows_of_step h with
  | getWrite =>
    cases hop
    exact .inl rfl
  | fits | unfound | gone =>
    cases hop
    exact .inr ⟨_, _, rfl⟩
  | _ => cases hop

end Section

-- ---------------------------------------------------------------------------
-- The representation
-- ---------------------------------------------------------------------------

/-- The pushing operations have something to push. -/
def Call.HasArguments : Call → Prop
  | .on _ op _ => op.HasArguments
  | _ => True

def Task.HasArguments (task : Task cfg) : Prop :=
  ∀ key op now, task.operation = some (key, op, now) → op.HasArguments

theorem hasArguments_enter {call : Call} (h : call.HasArguments) :
    (enter call : Task cfg).HasArguments := by
  intro key op now hop
  cases call with
  | on key' op' clock =>
    cases op' with
    | get =>
      cases hop
      exact trivial
    | set value expiresAt => cases hop
    | _ =>
      cases hop
      exact h
  | _ => cases hop

theorem wellformed_section {db : Db cfg} (h : db.Wellformed) {task : Task cfg}
    (htask : task.HasArguments) (d : Input) : (task.step d db).1.Wellformed := by
  refine section_keeps d h (fun key op clock hop => ?_) (fun i key _ => kept_wellformed.remove i key h)
    (fun m hs => kept_wellformed.shards hs rfl)
    (fun i now keys => kept_wellformed.purgeRemove h i now keys)
  exact ⟨h.placed.locked key _, h.filled.lockedAt (KeyOp.filled_onCell (htask key op _ hop))⟩

theorem hasArguments_next {db : Db cfg} {task next : Task cfg} {d : Input}
    (h : (task.step d db).2 = .inl next) : next.HasArguments := by
  intro key op now hop
  rcases operation_next h hop with rfl | ⟨value, expiresAt, rfl⟩ <;> trivial

/-- In every state of every interleaving of calls that push something, each key is stored in
the shard `get_shard_index` assigns to it, and in no other, and no collection is empty. -/
theorem wellformed_interleave {es : List PoolEvent}
    (h : ∀ t call, .call t call ∈ es → call.HasArguments) :
    (∀ i key, ((interleave es : Pool cfg).shared.shards i).get? key ≠ none →
        i = getShardIndex cfg key) ∧
      ∀ i key entry, ((interleave es : Pool cfg).shared.shards i).get? key = some entry →
        entry.data.isEmpty = false := by
  have hcalls : ∀ e ∈ es, ∀ t call, e = .call t call → call.HasArguments :=
    fun e he t call hcall => h t call (hcall ▸ he)
  have hallowed : Allowed (Threads.perform (methods cfg)) _ (Threads.start empty) es :=
    allowed_of_forall hcalls
  have hkeeps := hallowed.invariant (I := Threads.Keeps Wellformed Task.HasArguments)
    (fun s e hs hcall => hs.perform (fun t call he => hasArguments_enter (hcall t call he))
      fun t d task _ _ htask =>
        ⟨wellformed_section hs.shared htask d, fun next hnext => hasArguments_next hnext⟩)
    (Threads.keeps_start wellformed_empty)
  exact ⟨hkeeps.shared.placed, hkeeps.shared.filled⟩

/-- Two threads push to one list; the second one's section runs first. -/
theorem wellformed_interleave_two_pushes :
    let clock : Clock := { now := 0, millis := 0 }
    let s : Pool (.standard 0 List.length) := interleave
      [.call 0 (.on [1] (.rpush [[2]]) clock), .call 1 (.on [1] (.lpush [[3]]) clock),
        .step 1 (.of 0 (0, 0)), .step 0 (.of 0 (0, 0))]
    (∀ i key, (s.shared.shards i).get? key ≠ none → i = getShardIndex _ key) ∧
      ∀ i key entry, (s.shared.shards i).get? key = some entry → entry.data.isEmpty = false := by
  intro clock s
  refine wellformed_interleave fun t call hcall => ?_
  simp only [List.mem_cons, Threads.Event.call.injEq, List.not_mem_nil, or_false,
    reduceCtorEq] at hcall
  rcases hcall with ⟨-, rfl⟩ | ⟨-, rfl⟩ <;> exact List.cons_ne_nil _ _

-- ---------------------------------------------------------------------------
-- The keys listed
-- ---------------------------------------------------------------------------

theorem placed_interleave (es : List PoolEvent) : (interleave es : Pool cfg).shared.Placed := by
  have hkeeps : (interleave es : Pool cfg).Keeps Placed fun _ => True := runAll_invariant
    (I := Threads.Keeps Placed fun _ => True) (fun s e hs => hs.perform (fun _ _ _ => trivial) fun t d task _ _ _ =>
      ⟨section_keeps d hs.shared (fun key op clock _ => hs.shared.locked key _)
        (fun i key _ => kept_placed.remove i key hs.shared) (fun m h => kept_placed.shards h rfl)
        (fun i now keys => kept_placed.purgeRemove hs.shared i now keys), fun _ _ => trivial⟩)
    (Threads.keeps_start placed_empty) es
  exact hkeeps.shared

theorem mem_shardKeys {db : Db cfg} (h : db.Placed) {i : Fin cfg.numShards}
    {pattern key : Bytes} {now : Instant} :
    key ∈ db.shardKeys i pattern now ↔ i = getShardIndex cfg key ∧
      (db.item now key).isSome = true ∧ matchesPattern pattern key = true := by
  rw [← mem_keys h, keys, List.mem_flatMap]
  constructor
  · intro hkey
    obtain ⟨entry, hget, -⟩ := mem_keys_filter.mp hkey
    exact ⟨h i key (by rw [hget]; exact Option.some_ne_none entry), i, List.mem_finRange i, hkey⟩
  · rintro ⟨rfl, j, -, hkey⟩
    obtain ⟨entry, hget, -⟩ := mem_keys_filter.mp hkey
    rwa [h j key (by rw [hget]; exact Option.some_ne_none entry)] at hkey

/-- What `keys` has found in the shards below `i`, given the stores its run went through. -/
structure Listing (pattern : Bytes) (now : Instant) (saw : Db cfg → Prop) (i : Nat)
    (result : List Bytes) : Prop where
  nodup : result.Nodup
  sound : ∀ key ∈ result, (getShardIndex cfg key).val < i ∧ matchesPattern pattern key = true ∧
    ∃ db, saw db ∧ (db.item now key).isSome = true
  complete : ∀ key, (getShardIndex cfg key).val < i → matchesPattern pattern key = true →
    (∀ db, saw db → (db.item now key).isSome = true) → key ∈ result

section Listing

variable {pattern : Bytes} {now : Instant} {saw : Db cfg → Prop} {i : Nat} {result : List Bytes}

theorem Listing.mono (h : Listing pattern now saw i result) {saw' : Db cfg → Prop}
    (hsaw : ∀ db, saw db → saw' db) : Listing pattern now saw' i result where
  nodup := h.nodup
  sound key hkey := by
    obtain ⟨hi, hmatch, db, hdb, hlive⟩ := h.sound key hkey
    exact ⟨hi, hmatch, db, hsaw db hdb, hlive⟩
  complete key hi hmatch hlive := h.complete key hi hmatch fun db hdb => hlive db (hsaw db hdb)

/-- One more shard. -/
theorem Listing.next (h : Listing pattern now saw i result) {db : Db cfg} (hplaced : db.Placed)
    (hdb : saw db) (hi : i < cfg.numShards) :
    Listing pattern now saw (i + 1) (result ++ db.shardKeys ⟨i, hi⟩ pattern now) where
  nodup := by
    refine List.nodup_append.mpr ⟨h.nodup, Table.nodup_keys _, fun key hkey key' hkey' heq => ?_⟩
    have hshard := ((mem_shardKeys hplaced).mp hkey').1
    have hlt := (h.sound key hkey).1
    rw [heq, ← hshard] at hlt
    exact Nat.lt_irrefl i hlt
  sound key hkey := by
    rcases List.mem_append.mp hkey with hkey | hkey
    · obtain ⟨hlt, hrest⟩ := h.sound key hkey
      exact ⟨Nat.lt_succ_of_lt hlt, hrest⟩
    · obtain ⟨hshard, hlive, hmatch⟩ := (mem_shardKeys hplaced).mp hkey
      exact ⟨by rw [← hshard]; exact Nat.lt_succ_self i, hmatch, db, hdb, hlive⟩
  complete key hlt hmatch hlive := by
    rcases Nat.lt_succ_iff_lt_or_eq.mp hlt with hlt | heq
    · exact List.mem_append_left _ (h.complete key hlt hmatch hlive)
    · exact List.mem_append_right _
        ((mem_shardKeys hplaced).mpr ⟨Fin.ext heq.symm, hlive db hdb, hmatch⟩)

end Listing

/-- Where a `KEYS` stands, if every store so far has its keys in their shards. -/
def ListingAt (pattern : Bytes) (now : Instant) (saw : Db cfg → Prop) (task : Task cfg) : Prop :=
  (∀ db, saw db → db.Placed) →
    ∃ i result, task = .keys pattern now i result ∧ Listing pattern now saw i result

/-- A `KEYS` that begins after `done` and returns after the events `es` lists no key twice, only
matching keys that were there in some state in between, and every matching key that was there
in all of them. -/
theorem keys_interleave {done es : List PoolEvent} {t : Nat} {pattern : Bytes} {now : Instant}
    {d : Input} {result : List Bytes} {begun : Pool cfg}
    (hbegun : interleave (done ++ [.call t (.keys pattern now)]) = begun)
    (hidle : (interleave done : Pool cfg).running t = none)
    (hstay : Threads.Stays (methods cfg) begun t es)
    (hreturn : (runAll (Threads.perform (methods cfg)) begun (es ++ [.step t d])).trace =
      (runAll (Threads.perform (methods cfg)) begun es).trace ++
        [(t, .inr (.members (.ok result)))]) :
    result.Nodup ∧
      (∀ key ∈ result, matchesPattern pattern key = true ∧
        ∃ db, Threads.Saw (methods cfg) begun es db ∧ (db.item now key).isSome = true) ∧
      ∀ key, matchesPattern pattern key = true →
        (∀ db, Threads.Saw (methods cfg) begun es db → (db.item now key).isSome = true) →
          key ∈ result := by
  have hstart : begun.running t = some (.keys pattern now 0 []) := by
    rw [← hbegun, interleave, runAll_append]
    change ((interleave done : Pool cfg).perform (methods cfg)
      (.call t (.keys pattern now))).running t = _
    rw [Threads.perform, hidle]
    exact Function.update_self ..
  obtain ⟨task, hrunning, htask⟩ := Threads.watched (I := ListingAt pattern now)
    (fun hsaw h hplaced => by
      obtain ⟨i, result, htask, hlisting⟩ := h fun db hdb => hplaced db (hsaw db hdb)
      exact ⟨i, result, htask, hlisting.mono hsaw⟩)
    (fun d hdb h hnext hplaced => by
      obtain ⟨i, result, rfl, hlisting⟩ := h hplaced
      change (Task.step _ _ _).2 = _ at hnext
      rw [Task.step] at hnext
      split at hnext
      · rename_i hi
        cases hnext
        exact ⟨_, _, rfl, hlisting.next (hplaced _ hdb) hdb hi⟩
      · cases hnext)
    hstart
    (fun _ => ⟨0, [], rfl, List.nodup_nil, fun key hkey => (List.not_mem_nil hkey).elim,
      fun key hlt => absurd hlt (Nat.not_lt_zero _)⟩)
    hstay
  have hplaced : ∀ db, Threads.Saw (methods cfg) begun es db → db.Placed := by
    rintro db ⟨es', -, rfl⟩
    rw [← hbegun, interleave, ← runAll_append]
    exact placed_interleave _
  obtain ⟨i, found, rfl, hlisting⟩ := htask hplaced
  rw [runAll_append] at hreturn
  replace hreturn := (Threads.trace_perform_step hrunning d).symm.trans hreturn
  replace hreturn := List.append_cancel_left hreturn
  change (Task.step _ _ _).2.elim _ _ = _ at hreturn
  rw [Task.step] at hreturn
  split at hreturn
  · cases hreturn
  · rename_i hend
    cases hreturn
    have hlt : ∀ key, (getShardIndex cfg key).val < i := fun key =>
      (getShardIndex cfg key).isLt.trans_le (Nat.le_of_not_lt hend)
    exact ⟨hlisting.nodup, fun key hkey => (hlisting.sound key hkey).2,
      fun key hmatch hlive => hlisting.complete key (hlt key) hmatch hlive⟩

/-- A `KEYS` that runs beside the deletion of a key lists it if it reads its shard first. -/
theorem keys_interleave_beside_del :
    let cfg : Config :=
      { numShards := 1, numShards_pos := by decide, maxmemory := 0, hash := List.length }
    let clock : Clock := { now := 0, millis := 0 }
    let d : Input := .of 0 (0, 0)
    let done : List PoolEvent :=
      [.call 0 (.on [1] (.set [2] none) clock), .step 0 d, .step 0 d, .call 0 (.del [[1]])]
    let begun : Pool cfg := interleave (done ++ [.call 1 (.keys [byte '*'] 0)])
    [[(1 : UInt8)]].Nodup ∧
      (∀ key ∈ [[(1 : UInt8)]], matchesPattern [byte '*'] key = true ∧
        ∃ db, Threads.Saw (methods cfg) begun [.step 1 d, .step 0 d] db ∧
          (db.item 0 key).isSome = true) ∧
      ∀ key, matchesPattern [byte '*'] key = true →
        (∀ db, Threads.Saw (methods cfg) begun [.step 1 d, .step 0 d] db →
          (db.item 0 key).isSome = true) → key ∈ [[(1 : UInt8)]] := by
  dsimp only
  refine keys_interleave (t := 1) (d := .of 0 (0, 0)) rfl rfl (fun es hes => ?_) (by rfl)
  rcases List.prefix_cons_iff.mp hes with rfl | ⟨rest, rfl, hrest⟩
  · exact Option.some_ne_none _
  · rcases List.prefix_cons_iff.mp hrest with rfl | ⟨last, rfl, hlast⟩
    · exact Option.some_ne_none _
    · rw [List.prefix_nil.mp hlast]
      exact Option.some_ne_none _

-- ---------------------------------------------------------------------------
-- The memory counter
-- ---------------------------------------------------------------------------

/-- The next section of a task creates a collection: a push on a key without a live entry. -/
def Task.creates (task : Task cfg) (db : Db cfg) : Bool :=
  match task.operation with
  | some (key, op, now) => op.pushes && (db.entry key).all fun entry => entry.isExpired now
  | none => false

/-- The event is such a section. -/
def creates (s : Pool cfg) : PoolEvent → Bool
  | .step t _ => (s.running t).any fun task => task.creates s.shared
  | .call _ _ => false

theorem accounted_section {db : Db cfg} (h : db.Accounted) {task : Task cfg}
    (htask : task.creates db = false) (d : Input) : (task.step d db).1.Accounted := by
  refine section_keeps d h (fun key op clock hop => ?_)
    (fun i key _ => h.lockedAt i key fun _ hc => Cell.balanced_del hc) (fun m hs => hs.of_metrics m)
    (fun i now keys => (h.purgeKeys i now keys).of_metrics _)
  rw [Task.creates, hop] at htask
  exact h.lockedAt _ key fun others hc => KeyOp.balanced_onCell hc htask

/-- A section that creates a collection leaves the counter short. -/
theorem not_accounted_section {db : Db cfg} (h : db.Accounted) {task : Task cfg}
    (htask : task.creates db = true) (d : Input) : ¬ (task.step d db).1.Accounted := by
  cases task with
  | on key op now =>
    have hp : op.pushes = true := (Bool.and_eq_true_iff.mp htask).1
    let env : Env := { clock := { now := now, millis := d.millis }, draws := fun _ _ => (0, 0) }
    have hafter : ¬ (db.perform env (.on key op)).2.Accounted := not_accounted_perform h htask
    rwa [Db.perform, performKey_eq, reserved_of_pushes hp] at hafter
  | _ => cases htask

theorem accounted_event {s : Pool cfg} (h : s.shared.Accounted) (e : PoolEvent) :
    (s.perform (methods cfg) e).shared.Accounted ↔ creates s e = false := by
  cases e with
  | call t call =>
    refine iff_of_true ?_ rfl
    rw [Threads.perform]
    split <;> exact h
  | step t d =>
    rw [Threads.shared_perform_step, creates]
    cases s.running t with
    | none => exact iff_of_true h rfl
    | some task =>
      show (task.step d s.shared).1.Accounted ↔ task.creates s.shared = false
      cases hcreates : task.creates s.shared with
      | false => exact iff_of_true (accounted_section h hcreates d) rfl
      | true => exact iff_of_false (not_accounted_section h hcreates d) Bool.noConfusion

/-- The counter equals the total size of the stored entries in every state of an interleaving,
and never goes below zero, exactly if no section of it creates a collection. -/
theorem accounted_interleave_iff (es : List PoolEvent) :
    (∀ done todo, es = done ++ todo → (interleave done : Pool cfg).shared.Accounted) ↔
      ∀ done e todo, es = done ++ e :: todo → creates (interleave done : Pool cfg) e = false := by
  have hnext : ∀ done e, (interleave (done ++ [e]) : Pool cfg) =
      (interleave done).perform (methods cfg) e := fun done e => runAll_append done [e]
  constructor
  · intro h done e todo hes
    refine (accounted_event (h done _ hes) e).mp ?_
    rw [← hnext]
    exact h (done ++ [e]) todo (by rw [hes, List.append_assoc]; rfl)
  · intro h done
    induction done using List.reverseRecOn with
    | nil => exact fun _ _ => accounted_empty
    | append_singleton done e ih =>
      intro todo hes
      rw [List.append_assoc] at hes
      rw [hnext]
      exact (accounted_event (ih _ hes) e).mpr (h done e todo hes)

end Db

end InMemoryCache
