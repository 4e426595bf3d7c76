-- SUMMARY: The store's methods section by section, run by threads side by side.
import InMemoryCache.Lib.Sections
import InMemoryCache.Store.Evict
import InMemoryCache.Store.Get

/-!
# The store under threads

Every method of `Db` holds the lock of one shard at a time. `GET` takes a second lock when it
finds an expired entry, `SET` takes many while it makes room, `DEL` one for each key, the
sweeper two, and `KEYS` one for each shard; between two locks the threads of other clients
run. Whatever the interleaving, the store goes through atomic steps, and each call returns
what its own steps answered.
-/

namespace InMemoryCache

open Lib

variable {cfg : Config}

namespace Db

-- ---------------------------------------------------------------------------
-- The sections
-- ---------------------------------------------------------------------------

/-- What a section reads from outside: the milliseconds to stamp, the random draws, and what
sections under way in other shards have added to the memory counter so far. -/
structure Input where
  millis : Nat
  underway : Nat
  draw : Nat × Nat
  draws : Nat → Nat

/-- The candidate for eviction so far, and when it was last accessed. -/
abbrev Oldest (cfg : Config) : Type := Option (Fin cfg.numShards × Bytes) × Nat

/-- One turn of the sampling loop of `evict_lru_step`. -/
def sampleOnce (db : Db cfg) (draw : Nat × Nat) (oldest : Oldest cfg) : Oldest cfg :=
  let i := drawShard cfg draw.1
  let keys := (db.shards i).keys
  match keys[draw.2 % keys.length]? with
  | none => oldest
  | some candidate =>
    match (db.shards i).get? candidate with
    | none => oldest
    | some entry =>
      if entry.lastAccessed < oldest.2 then (some (i, candidate), entry.lastAccessed) else oldest

/-- The end of `evict_lru_step`: remove the candidate, if it is still there, and count it. -/
def removeOldest (i : Fin cfg.numShards) (key : Bytes) (db : Db cfg) : Bool × Db cfg :=
  let (removed, db) := db.lockedAt i key (Cell.del key)
  if removed = 1 then (true, { db with metrics := db.metrics.recordEviction 1 }) else (false, db)

/-- What `keys` finds in one shard. -/
def shardKeys (db : Db cfg) (i : Fin cfg.numShards) (pattern : Bytes) (now : Instant) :
    List Bytes :=
  ((db.shards i).filter fun key entry =>
    !entry.isExpired now && matchesPattern pattern key).keys

/-- A call of a method, with the times it captures when it begins. -/
inductive Call where
  | on (key : Bytes) (op : KeyOp) (clock : Clock)
  | del (keys : List Bytes)
  | purge (sampleSize shard : Nat) (now : Instant)
  | evict (sampleSize : Nat)
  | keys (pattern : Bytes) (now : Instant)

/-- A `SET` under way, with the times its new entry was made. -/
structure Setting where
  key : Bytes
  value : Bytes
  expiresAt : Option Instant
  clock : Clock

def Setting.newSize (c : Setting) : Nat :=
  (CacheEntry.new (.string c.value) c.expiresAt c.clock.millis).sizeBytes c.key

/-- Where a thread stands between two sections. `after` is the `SET` that makes room, if the
eviction step is one of a `SET`. -/
inductive Task (cfg : Config) where
  | get (key : Bytes) (now : Instant)
  | getWrite (key : Bytes) (now : Instant)
  | room (c : Setting)
  | sample (after : Option Setting) (left : Nat) (oldest : Oldest cfg)
  | remove (after : Option Setting) (i : Fin cfg.numShards) (key : Bytes)
  | insert (c : Setting)
  | on (key : Bytes) (op : KeyOp) (now : Instant)
  | del (keys : List Bytes) (removed : Nat)
  | purgeSample (sampleSize : Nat) (i : Fin cfg.numShards) (now : Instant)
  | purgeRemove (sampled : Nat) (i : Fin cfg.numShards) (now : Instant) (expiredKeys : List Bytes)
  | keys (pattern : Bytes) (now : Instant) (i : Nat) (result : List Bytes)

/-- Where a call begins. -/
def enter : Call → Task cfg
  | .on key .get clock => .get key clock.now
  | .on key (.set value expiresAt) clock =>
    .room { key := key, value := value, expiresAt := expiresAt, clock := clock }
  | .on key op clock => .on key op clock.now
  | .del keys => .del keys 0
  | .purge sampleSize shard now => .purgeSample sampleSize (drawShard cfg shard) now
  | .evict sampleSize => .sample none sampleSize (none, U64.size - 1)
  | .keys pattern now => .keys pattern now 0 []

/-- An eviction step is over: a `SET` tests the limit again or gives up making room. -/
def evicted (removed : Bool) : Option Setting → Task cfg ⊕ Answer
  | some c => .inl (if removed then .room c else .insert c)
  | none => .inr (.evicted removed)

/-- The next section of a task. -/
def Task.step (d : Input) (db : Db cfg) : Task cfg → Db cfg × (Task cfg ⊕ Answer)
  | .get key now =>
    match db.getRead key now d.millis with
    | (some r, db) => (db, .inr (.value r))
    | (none, db) => (db, .inl (.getWrite key now))
  | .getWrite key now =>
    let (r, db) := db.getWrite key now d.millis
    (db, .inr (.value r))
  | .room c =>
    if cfg.maxmemory > 0 ∧
        ((db.currentMemory + d.underway) % U64.size + c.newSize) % U64.size > cfg.maxmemory then
      (db, .inl (.sample (some c) lruSampleSize (none, U64.size - 1)))
    else (db, .inl (.insert c))
  | .sample after (left + 1) oldest => (db, .inl (.sample after left (db.sampleOnce d.draw oldest)))
  | .sample after 0 oldest =>
    match oldest.1 with
    | some (i, key) => (db, .inl (.remove after i key))
    | none => (db, evicted false after)
  | .remove after i key =>
    let (removed, db) := db.removeOldest i key
    (db, evicted removed after)
  | .insert c =>
    let (_, db) := db.locked c.key fun cell =>
      ((), Cell.set c.key c.value c.expiresAt c.clock cell)
    (db, .inr .done)
  | .on key op now =>
    let (answer, db) := db.locked key fun c => op.onCell key { now := now, millis := d.millis } c
    (db, .inr answer)
  | .del [] removed => (db, .inr (.count (.ok removed)))
  | .del (key :: todo) removed =>
    let (n, db) := db.locked key (Cell.del key)
    (db, .inl (.del todo (removed + n)))
  | .purgeSample sampleSize i now =>
    let (sampled, expiredKeys) := db.purgeSample i now sampleSize d.draws
    if expiredKeys.isEmpty then (db, .inr (.sampled (sampled, 0)))
    else (db, .inl (.purgeRemove sampled i now expiredKeys))
  | .purgeRemove sampled i now expiredKeys =>
    (db.purgeRemove i now expiredKeys, .inr (.sampled (sampled, expiredKeys.length)))
  | .keys pattern now i result =>
    if h : i < cfg.numShards then
      (db, .inl (.keys pattern now (i + 1) (result ++ db.shardKeys ⟨i, h⟩ pattern now)))
    else (db, .inr (.members (.ok result)))

/-- The methods of `Db`, section by section. -/
def methods (cfg : Config) : Sections (Db cfg) (Task cfg) Call Answer Input where
  enter := enter
  step := Task.step

-- ---------------------------------------------------------------------------
-- The atomic steps
-- ---------------------------------------------------------------------------

/-- What the store goes through: an operation on one key, as a whole (a `SET` after it has
made room); the removal of a key by `DEL` or by the evictor; the sweeper's removals. The others
only look: at the limit, at one entry to evict, at a sample of one shard, at the keys of one. -/
inductive Atom (cfg : Config) where
  | on (key : Bytes) (op : KeyOp) (clock : Clock)
  | remove (key : Bytes)
  | evict (i : Fin cfg.numShards) (key : Bytes)
  | purge (i : Fin cfg.numShards) (now : Instant) (expiredKeys : List Bytes)
  | isFull (neededBytes underway : Nat)
  | sample (draw : Nat × Nat) (oldest : Oldest cfg)
  | sampleExpired (sampleSize : Nat) (i : Fin cfg.numShards) (now : Instant) (draws : Nat → Nat)
  | list (i : Fin cfg.numShards) (pattern : Bytes) (now : Instant)

/-- What a step tells the method that makes it. -/
inductive Seen (cfg : Config) where
  | answer (a : Answer)
  | full (b : Bool)
  | oldest (oldest : Oldest cfg)
  | expired (sampled : Nat) (expiredKeys : List Bytes)
  | listed (keys : List Bytes)

/-- The limit does not admit the bytes. -/
def isFull (db : Db cfg) (neededBytes underway : Nat) : Bool :=
  decide (cfg.maxmemory > 0 ∧
    ((db.currentMemory + underway) % U64.size + neededBytes) % U64.size > cfg.maxmemory)

def Atom.act (a : Atom cfg) (db : Db cfg) : Seen cfg × Db cfg :=
  match a with
  | .on key op clock =>
    let (a, db) := db.locked key fun c => op.onCell key clock c
    (.answer a, db)
  | .remove key =>
    let (n, db) := db.locked key (Cell.del key)
    (.answer (.count (.ok n)), db)
  | .evict i key =>
    let (removed, db) := db.removeOldest i key
    (.answer (.evicted removed), db)
  | .purge i now expiredKeys => (.answer .done, db.purgeRemove i now expiredKeys)
  | .isFull neededBytes underway => (.full (db.isFull neededBytes underway), db)
  | .sample draw oldest => (.oldest (db.sampleOnce draw oldest), db)
  | .sampleExpired sampleSize i now draws =>
    let (sampled, expiredKeys) := db.purgeSample i now sampleSize draws
    (.expired sampled expiredKeys, db)
  | .list i pattern now => (.listed (db.shardKeys i pattern now), db)

/-- The step reads from outside what a section was given. A `SET` stores at the time at which
its entry was made. -/
def Atom.Reads (d : Input) : Atom cfg → Prop
  | .on _ (.set _ _) _ => True
  | .on _ _ clock => clock.millis = d.millis
  | .isFull _ underway => underway = d.underway
  | .sample draw _ => draw = d.draw
  | .sampleExpired _ _ _ draws => draws = d.draws
  | .remove _ | .evict _ _ | .purge _ _ _ | .list _ _ _ => True

theorem Atom.reads_on (key : Bytes) (op : KeyOp) (now : Instant) (d : Input) :
    (.on key op { now := now, millis := d.millis } : Atom cfg).Reads d := by
  cases op with
  | set => trivial
  | _ => rfl

/-- The turns of the sampling loop of an eviction step, and the candidate they end with. -/
inductive Samples : Nat → List (Atom cfg × Seen cfg) → Oldest cfg → Prop where
  | nil : Samples 0 [] (none, U64.size - 1)
  | snoc {n : Nat} {es : List (Atom cfg × Seen cfg)} {oldest : Oldest cfg}
      (h : Samples n es oldest) (draw : Nat × Nat) (oldest' : Oldest cfg) :
      Samples (n + 1) (es ++ [(.sample draw oldest, .oldest oldest')]) oldest'

/-- An eviction step: it samples, and removes the candidate if it has one. -/
inductive Evicting (sampleSize : Nat) : List (Atom cfg × Seen cfg) → Bool → Prop where
  | none {es : List (Atom cfg × Seen cfg)} {accessed : Nat}
      (h : Samples sampleSize es (none, accessed)) : Evicting sampleSize es false
  | some {es : List (Atom cfg × Seen cfg)} {i : Fin cfg.numShards} {key : Bytes} {accessed : Nat}
      (h : Samples sampleSize es (some (i, key), accessed)) (removed : Bool) :
      Evicting sampleSize (es ++ [(.evict i key, .answer (.evicted removed))]) removed

/-- The rounds of a `SET` that makes room: it finds the store full, and evicts an entry. -/
inductive Making (c : Setting) : List (Atom cfg × Seen cfg) → Prop where
  | nil : Making c []
  | round {es es' : List (Atom cfg × Seen cfg)} (h : Making c es) (underway : Nat)
      (hevicting : Evicting lruSampleSize es' true) :
      Making c (es ++ [(.isFull c.newSize underway, .full true)] ++ es')

/-- A `SET` has made room: its bytes fit, or an eviction step removed nothing. -/
inductive Made (c : Setting) : List (Atom cfg × Seen cfg) → Prop where
  | fits {es : List (Atom cfg × Seen cfg)} (h : Making c es) (underway : Nat) :
      Made c (es ++ [(.isFull c.newSize underway, .full false)])
  | fails {es es' : List (Atom cfg × Seen cfg)} (h : Making c es) (underway : Nat)
      (hevicting : Evicting lruSampleSize es' false) :
      Made c (es ++ [(.isFull c.newSize underway, .full true)] ++ es')

/-- The steps of a `DEL`: one for each key, and the sum of what they removed. -/
inductive Removals : List Bytes → List (Atom cfg × Seen cfg) → Nat → Prop where
  | nil : Removals [] [] 0
  | snoc {keys : List Bytes} {es : List (Atom cfg × Seen cfg)} {removed : Nat}
      (h : Removals keys es removed) (key : Bytes) (n : Nat) :
      Removals (keys ++ [key]) (es ++ [(.remove key, .answer (.count (.ok n)))]) (removed + n)

/-- The steps of a `KEYS` over the first shards, and what they listed. -/
inductive Listings (pattern : Bytes) (now : Instant) :
    Nat → List (Atom cfg × Seen cfg) → List Bytes → Prop where
  | nil : Listings pattern now 0 [] []
  | snoc {i : Nat} {es : List (Atom cfg × Seen cfg)} {result : List Bytes}
      (h : Listings pattern now i es result) (hi : i < cfg.numShards) (keys : List Bytes) :
      Listings pattern now (i + 1) (es ++ [(.list ⟨i, hi⟩ pattern now, .listed keys)])
        (result ++ keys)

/-- The call of a `SET`. -/
def Setting.call (c : Setting) : Call := .on c.key (.set c.value c.expiresAt) c.clock

/-- What a call may return after its steps. -/
inductive Explains : Call → List (Atom cfg × Seen cfg) → Answer → Prop where
  /-- An operation on a key returns what its one step answered. -/
  | on {op : KeyOp} (h : ∀ value expiresAt, op ≠ .set value expiresAt) (key clock millis a) :
      Explains (.on key op clock)
        [(.on key op { now := clock.now, millis := millis }, .answer a)] a
  /-- A `SET` makes room, and then stores. -/
  | set (c : Setting) {es} (h : Made c es) :
      Explains c.call (es ++ [(.on c.key (.set c.value c.expiresAt) c.clock, .answer .done)]) .done
  | evict {sampleSize es removed} (h : Evicting sampleSize es removed) :
      Explains (.evict sampleSize) es (.evicted removed)
  | del {keys es removed} (h : Removals keys es removed) :
      Explains (.del keys) es (.count (.ok removed))
  /-- A sweep removes what it found expired, and reports how much it sampled and found. -/
  | purge {expiredKeys} (h : expiredKeys ≠ []) (sampleSize shard now draws sampled) :
      Explains (.purge sampleSize shard now)
        [(.sampleExpired sampleSize (drawShard cfg shard) now draws, .expired sampled expiredKeys),
          (.purge (drawShard cfg shard) now expiredKeys, .answer .done)]
        (.sampled (sampled, expiredKeys.length))
  | purgeNone (sampleSize shard now draws sampled) :
      Explains (.purge sampleSize shard now)
        [(.sampleExpired sampleSize (drawShard cfg shard) now draws, .expired sampled [])]
        (.sampled (sampled, 0))
  | keys {pattern now es result} (h : Listings pattern now cfg.numShards es result) :
      Explains (.keys pattern now) es (.members (.ok result))

/-- The steps of a call before the eviction step that it comes to. -/
inductive Begun : Option Setting → Nat → Call → List (Atom cfg × Seen cfg) → Prop where
  | alone (sampleSize) : Begun none sampleSize (.evict sampleSize) []
  | room (c : Setting) {es} (h : Making c es) (underway) :
      Begun (some c) lruSampleSize c.call (es ++ [(.isFull c.newSize underway, .full true)])

/-- The steps a call has made when it stands at a task. -/
inductive Progress : Call → List (Atom cfg × Seen cfg) → Task cfg → Prop where
  | get (key clock) : Progress (.on key .get clock) [] (.get key clock.now)
  | getWrite (key clock) : Progress (.on key .get clock) [] (.getWrite key clock.now)
  | on {op : KeyOp} (h : ∀ value expiresAt, op ≠ .set value expiresAt) (key clock) :
      Progress (.on key op clock) [] (.on key op clock.now)
  | room (c : Setting) {es} (h : Making c es) : Progress c.call es (.room c)
  | insert (c : Setting) {es} (h : Made c es) : Progress c.call es (.insert c)
  | sample {after sampleSize call es es' n left oldest} (hbegun : Begun after sampleSize call es)
      (h : Samples n es' oldest) (hleft : n + left = sampleSize) :
      Progress call (es ++ es') (.sample after left oldest)
  | remove {after sampleSize call es es' i key accessed}
      (hbegun : Begun after sampleSize call es)
      (h : Samples sampleSize es' (some (i, key), accessed)) :
      Progress call (es ++ es') (.remove after i key)
  | del {done es removed} (h : Removals done es removed) (todo) :
      Progress (.del (done ++ todo)) es (.del todo removed)
  | purgeSample (sampleSize shard now) :
      Progress (.purge sampleSize shard now) []
        (.purgeSample sampleSize (drawShard cfg shard) now)
  | purgeRemove {expiredKeys} (h : expiredKeys ≠ []) (sampleSize shard now draws sampled) :
      Progress (.purge sampleSize shard now)
        [(.sampleExpired sampleSize (drawShard cfg shard) now draws, .expired sampled expiredKeys)]
        (.purgeRemove sampled (drawShard cfg shard) now expiredKeys)
  | keys {pattern now i es result} (h : Listings pattern now i es result)
      (hi : i ≤ cfg.numShards) : Progress (.keys pattern now) es (.keys pattern now i result)

/-! ## Each section performs its steps -/

section Sections

variable {db : Db cfg} {d : Input}

theorem progress_enter (call : Call) : Progress call [] (enter call : Task cfg) := by
  cases call with
  | on key op clock =>
    cases op with
    | get => exact .get key clock
    | set value expiresAt => exact .room ⟨key, value, expiresAt, clock⟩ .nil
    | _ => exact .on (by simp) key clock
  | del keys => exact .del .nil keys
  | purge sampleSize shard now => exact .purgeSample sampleSize shard now
  | evict sampleSize => exact .sample (.alone sampleSize) .nil (Nat.zero_add sampleSize)
  | keys pattern now => exact .keys .nil (Nat.zero_le _)

/-- `get` is one operation on the cell. -/
theorem locked_get (key : Bytes) (now : Instant) (millis : Nat) (db : Db cfg) :
    db.locked key (fun c => KeyOp.get.onCell key { now := now, millis := millis } c) =
      answer .value (db.getOnce key now millis) := by
  rw [getOnce, locked, locked, lockedAt, lockedAt]
  simp only [KeyOp.onCell, Cell.get_eq_once]
  rfl

/-- The look of a `GET` is the whole of it, or finds an expired entry and does nothing. -/
theorem locked_getRead {key : Bytes} {now : Instant} {millis : Nat}
    {r : Option (Except String (Option Bytes))} {db' : Db cfg}
    (h : db.getRead key now millis = (r, db')) :
    r.elim (db' = db) fun r =>
      db.locked key (fun c => KeyOp.get.onCell key { now := now, millis := millis } c) =
        (.value r, db') := by
  cases r with
  | none => exact (twoPhase_get key now).passed h
  | some r =>
    rw [Option.elim_some, locked_get, (twoPhase_get key now).answered h]
    rfl

/-- The second section of a `GET` is the whole of it. -/
theorem locked_getWrite (key : Bytes) (now : Instant) (millis : Nat) (db : Db cfg) :
    db.locked key (fun c => KeyOp.get.onCell key { now := now, millis := millis } c) =
      answer .value (db.getWrite key now millis) := by
  rw [locked_get, (twoPhase_get key now).acted]

/-- A section performs steps that take its call from `es` on to where the section ends. -/
def Performs (d : Input) (call : Call) (es : List (Atom cfg × Seen cfg)) (db : Db cfg)
    (x : Db cfg × (Task cfg ⊕ Answer)) : Prop :=
  ∃ more, Acts Atom.act db more x.1 ∧ (∀ e ∈ more, e.1.Reads d) ∧
    x.2.elim (Progress call (es ++ more)) (Explains call (es ++ more))

section Performs

variable {call : Call} {es es' : List (Atom cfg × Seen cfg)} {task : Task cfg} {a : Answer}
  {after : Option Setting} {sampleSize : Nat}

/-- A section that does not touch the store. -/
theorem performs_nothing {next : Task cfg ⊕ Answer}
    (h : next.elim (Progress call es) (Explains call es)) : Performs d call es db (db, next) :=
  ⟨[], rfl, List.forall_mem_nil _, by rwa [List.append_nil]⟩

/-- A section that is one step. -/
theorem performs_act (atom : Atom cfg) {db' : Db cfg} {b : Seen cfg} {next : Task cfg ⊕ Answer}
    (hact : atom.act db = (b, db')) (hreads : atom.Reads d)
    (h : next.elim (Progress call (es ++ [(atom, b)])) (Explains call (es ++ [(atom, b)]))) :
    Performs d call es db (db', next) := by
  refine ⟨[(atom, b)], ?_, List.forall_mem_singleton.mpr hreads, h⟩
  have hacts := acts_singleton Atom.act db atom
  rwa [hact] at hacts

/-- A section that is one operation on a key. -/
theorem performs_on {key : Bytes} {op : KeyOp} {clock : Clock} {db' : Db cfg}
    (hop : ∀ value expiresAt, op ≠ .set value expiresAt)
    (h : db.locked key (fun c => op.onCell key { now := clock.now, millis := d.millis } c) =
      (a, db')) : Performs d (.on key op clock) [] db (db', .inr a) := by
  refine performs_act (.on key op { now := clock.now, millis := d.millis }) (b := .answer a) ?_
    (Atom.reads_on key op clock.now d) (.on hop key clock d.millis a)
  rw [Atom.act, h]

theorem performs_get (key : Bytes) (clock : Clock) :
    Performs d (.on key .get clock) [] db (Task.step d db (.get key clock.now)) := by
  rw [Task.step]
  cases hread : db.getRead key clock.now d.millis with
  | mk r db' =>
    have hlocked := locked_getRead hread
    cases r with
    | none =>
      rw [Option.elim_none] at hlocked
      rw [hlocked]
      exact performs_nothing (.getWrite key clock)
    | some r => exact performs_on (by simp) hlocked

theorem performs_getWrite (key : Bytes) (clock : Clock) :
    Performs d (.on key .get clock) [] db (Task.step d db (.getWrite key clock.now)) := by
  rw [Task.step]
  exact performs_on (by simp) (locked_getWrite key clock.now d.millis db)

theorem performs_room (c : Setting) (h : Making c es) :
    Performs d c.call es db (Task.step d db (.room c)) := by
  rw [Task.step]
  split
  · rename_i hfull
    refine performs_act (.isFull c.newSize d.underway) (b := .full true) ?_ rfl ?_
    · rw [Atom.act, isFull, decide_eq_true hfull]
    · have hsample := Progress.sample (.room c h d.underway) .nil (Nat.zero_add lruSampleSize)
      rwa [List.append_nil] at hsample
  · rename_i hroom
    refine performs_act (.isFull c.newSize d.underway) (b := .full false) ?_ rfl
      (.insert c (.fits h d.underway))
    rw [Atom.act, isFull, decide_eq_false hroom]

/-- An eviction step is over. -/
theorem Begun.over {removed : Bool} (hbegun : Begun after sampleSize call es)
    (h : Evicting sampleSize es' removed) :
    (evicted removed after : Task cfg ⊕ Answer).elim (Progress call (es ++ es'))
      (Explains call (es ++ es')) := by
  cases hbegun with
  | alone => exact .evict h
  | room c hmaking underway =>
    cases removed with
    | true => exact .room c (hmaking.round underway h)
    | false => exact .insert c (.fails hmaking underway h)

/-- The sampling loop looks at one entry a turn; at its end there is a candidate, or none. -/
theorem performs_sample {n left : Nat} {oldest : Oldest cfg}
    (hbegun : Begun after sampleSize call es) (h : Samples n es' oldest)
    (hleft : n + left = sampleSize) :
    Performs d call (es ++ es') db (Task.step d db (.sample after left oldest)) := by
  cases left with
  | succ left =>
    refine performs_act (.sample d.draw oldest) (b := .oldest (db.sampleOnce d.draw oldest)) rfl
      rfl ?_
    rw [List.append_assoc]
    exact .sample hbegun (h.snoc d.draw _) (by rw [Nat.add_assoc, Nat.add_comm 1, hleft])
  | zero =>
    obtain rfl : n = sampleSize := hleft
    obtain ⟨best, accessed⟩ := oldest
    cases best with
    | some best => exact performs_nothing (.remove hbegun h)
    | none => exact performs_nothing (hbegun.over (.none h))

theorem performs_remove {i : Fin cfg.numShards} {key : Bytes} {accessed : Nat}
    (hbegun : Begun after sampleSize call es)
    (h : Samples sampleSize es' (some (i, key), accessed)) :
    Performs d call (es ++ es') db (Task.step d db (.remove after i key)) := by
  rw [Task.step]
  refine performs_act (.evict i key) rfl trivial ?_
  rw [List.append_assoc]
  exact hbegun.over (.some h _)

theorem performs_insert (c : Setting) (h : Made c es) :
    Performs d c.call es db (Task.step d db (.insert c)) := by
  rw [Task.step]
  exact performs_act (.on c.key (.set c.value c.expiresAt) c.clock) (b := .answer .done) rfl
    trivial (.set c h)

theorem performs_del {done : List Bytes} {removed : Nat} (h : Removals done es removed)
    (todo : List Bytes) :
    Performs d (.del (done ++ todo)) es db (Task.step d db (.del todo removed)) := by
  cases todo with
  | nil =>
    rw [List.append_nil]
    exact performs_nothing (.del h)
  | cons key todo =>
    rw [Task.step, List.append_cons]
    exact performs_act (.remove key) rfl trivial (.del (h.snoc key _) todo)

theorem performs_purgeSample (sampleSize shard : Nat) (now : Instant) :
    Performs d (.purge sampleSize shard now) [] db
      (Task.step d db (.purgeSample sampleSize (drawShard cfg shard) now)) := by
  have hact : Atom.act (.sampleExpired sampleSize (drawShard cfg shard) now d.draws) db =
      (.expired (db.purgeSample (drawShard cfg shard) now sampleSize d.draws).1
        (db.purgeSample (drawShard cfg shard) now sampleSize d.draws).2, db) := rfl
  rw [Task.step]
  dsimp only
  split
  · rename_i hnone
    rw [List.isEmpty_iff] at hnone
    rw [hnone] at hact
    exact performs_act _ hact rfl (.purgeNone sampleSize shard now d.draws _)
  · rename_i hsome
    rw [List.isEmpty_iff] at hsome
    exact performs_act _ hact rfl (.purgeRemove hsome sampleSize shard now d.draws _)

theorem performs_keys {pattern : Bytes} {now : Instant} {i : Nat} {result : List Bytes}
    (h : Listings pattern now i es result) (hi : i ≤ cfg.numShards) :
    Performs d (.keys pattern now) es db (Task.step d db (.keys pattern now i result)) := by
  rw [Task.step]
  split
  · rename_i hlt
    exact performs_act (.list ⟨i, hlt⟩ pattern now) rfl trivial (.keys (h.snoc hlt _) hlt)
  · rename_i hge
    obtain rfl : i = cfg.numShards := by omega
    exact performs_nothing (.keys h)

end Performs

end Sections

/-- The methods stand for their atomic steps. -/
theorem linear_methods (cfg : Config) :
    Linear (methods cfg) Atom.act Atom.Reads Progress Explains where
  enter := progress_enter
  step {call es task} d db h := by
    show Performs d call es db (Task.step d db task)
    cases h with
    | get key clock => exact performs_get key clock
    | getWrite key clock => exact performs_getWrite key clock
    | on hop key clock => exact performs_on hop rfl
    | room c h => exact performs_room c h
    | insert c h => exact performs_insert c h
    | sample hbegun h hleft => exact performs_sample hbegun h hleft
    | remove hbegun h => exact performs_remove hbegun h
    | del h todo => exact performs_del h todo
    | purgeSample n shard now => exact performs_purgeSample n shard now
    | purgeRemove h n shard now draws sampled =>
      exact performs_act (.purge (drawShard cfg shard) now _) rfl trivial
        (.purge h n shard now draws sampled)
    | keys h hi => exact performs_keys h hi

-- ---------------------------------------------------------------------------
-- A call alone
-- ---------------------------------------------------------------------------

/-- A task runs to its result with no other thread in between. -/
inductive Alone : Db cfg → Task cfg → Answer × Db cfg → Prop where
  | last {db db' : Db cfg} {task : Task cfg} {a : Answer} (d : Input)
      (h : Task.step d db task = (db', .inr a)) : Alone db task (a, db')
  | more {db db' : Db cfg} {task t : Task cfg} {x : Answer × Db cfg} (d : Input)
      (h : Task.step d db task = (db', .inl t)) (hx : Alone db' t x) : Alone db task x

/-- The call of an operation. -/
def callOf (env : Env) : Op → Call
  | .on key op => .on key op env.clock
  | .del keys => .del keys
  | .keys pattern => .keys pattern env.clock.now
  | .purge sampleSize shard _ => .purge sampleSize shard env.clock.now
  | .evict sampleSize _ => .evict sampleSize

section Alone

variable {db : Db cfg} {x : Answer × Db cfg}

/-- A section reads the time and a draw, and no other section is under way. -/
def Input.of (millis : Nat) (draw : Nat × Nat) : Input :=
  { millis := millis, underway := 0, draw := draw, draws := fun _ => 0 }

theorem sampleLru_succ (draws : Nat → Nat × Nat) (n : Nat) :
    db.sampleOnce (draws n) (db.sampleLru draws n) = db.sampleLru draws (n + 1) := rfl

/-- The sampling loop, one turn after the other. -/
theorem alone_sample {after : Option Setting} (draws : Nat → Nat × Nat) (left n : Nat)
    (h : Alone db (.sample after 0 (db.sampleLru draws (n + left))) x) :
    Alone db (.sample after left (db.sampleLru draws n)) x := by
  induction left generalizing n with
  | zero => exact h
  | succ left ih =>
    refine .more (Input.of 0 (draws n)) rfl ?_
    rw [Input.of, sampleLru_succ]
    exact ih (n + 1) (by rwa [Nat.add_assoc, Nat.add_comm 1])

/-- An eviction step: the loop, and the removal of what it found. -/
theorem alone_evict {after : Option Setting} (sampleSize : Nat) (draws : Nat → Nat × Nat)
    (h : (evicted (db.evictLruStep sampleSize draws).1 after).elim
      (fun task => Alone (db.evictLruStep sampleSize draws).2 task x)
      (fun a => x = (a, (db.evictLruStep sampleSize draws).2))) :
    Alone db (.sample after sampleSize (none, U64.size - 1)) x := by
  refine alone_sample draws sampleSize 0 ?_
  rw [Nat.zero_add]
  rw [evictLruStep] at h
  have hend : ∀ {b db'}, (evicted b after).elim (fun task => Alone db' task x)
      (fun a => x = (a, db')) → ∀ {s : Db cfg} {task}, (∀ d, Task.step d s task = (db', evicted b after)) →
        Alone s task x := by
    intro b db' hx s task hstep
    cases hnext : (evicted b after : Task cfg ⊕ Answer) with
    | inl task' =>
      rw [hnext] at hx
      exact .more (Input.of 0 (0, 0)) (by rw [hstep, hnext]) hx
    | inr a =>
      rw [hnext] at hx
      rw [show x = _ from hx]
      exact .last (Input.of 0 (0, 0)) (by rw [hstep, hnext])
  cases hbest : (db.sampleLru draws sampleSize).1 with
  | none =>
    rw [hbest] at h
    exact hend h fun d => by rw [Task.step, hbest]
  | some best =>
    rw [hbest] at h
    refine .more (t := .remove after best.1 best.2) (Input.of 0 (0, 0))
      (by rw [Task.step, hbest]) ?_
    exact hend h fun d => rfl

/-- A `SET` makes room round by round; the bound on the rounds is never met. -/
theorem alone_room (c : Setting) (fuel : Nat) (draws : Nat → Nat → Nat × Nat)
    (hmax : cfg.maxmemory > 0) (hfuel : db.len < fuel)
    (h : Alone (ensureCapacityLoop c.newSize fuel draws db) (.insert c) x) :
    Alone db (.room c) x := by
  induction fuel generalizing db draws with
  | zero => exact absurd hfuel (Nat.not_lt_zero _)
  | succ fuel ih =>
    rw [ensureCapacityLoop] at h
    have hroom : ((db.currentMemory + (Input.of 0 (0, 0)).underway) % U64.size + c.newSize) % U64.size >
        cfg.maxmemory ↔ (db.currentMemory + c.newSize) % U64.size > cfg.maxmemory := by
      rw [Input.of, Nat.add_zero, Nat.mod_add_mod]
    by_cases hover : (db.currentMemory + c.newSize) % U64.size > cfg.maxmemory
    · rw [if_pos hover] at h
      refine .more (Input.of 0 (0, 0)) (by rw [Task.step, if_pos ⟨hmax, hroom.mpr hover⟩]) ?_
      refine alone_evict lruSampleSize (draws 0) ?_
      rcases db.evictLruStep_cases lruSampleSize (draws 0) with
        ⟨-, hfail⟩ | ⟨-, i, key, entry, db', hstep, -, -, hevicts⟩
      · rw [hfail] at h ⊢
        exact h
      · rw [hstep] at h ⊢
        have hlen : db'.len < fuel := by
          have hone := hevicts.len
          omega
        exact ih (fun k => draws (k + 1)) hlen h
    · rw [if_neg hover] at h
      exact .more (Input.of 0 (0, 0))
        (by rw [Task.step, if_neg fun hfull => hover (hroom.mp hfull.2)]) h

theorem alone_set (key value : Bytes) (expiresAt : Option Instant) (env : Env) :
    Alone db (.room ⟨key, value, expiresAt, env.clock⟩) (.done, db.set key value expiresAt env) := by
  have hinsert : ∀ s : Db cfg, Alone s (.insert ⟨key, value, expiresAt, env.clock⟩)
      (.done, (s.locked key fun c => ((), Cell.set key value expiresAt env.clock c)).2) :=
    fun s => .last (Input.of 0 (0, 0)) rfl
  rw [Db.set, ensureCapacity]
  by_cases hmax : cfg.maxmemory > 0
  · rw [if_pos hmax]
    exact alone_room _ (db.len + 1) env.draws hmax (Nat.lt_succ_self _) (hinsert _)
  · rw [if_neg hmax]
    exact .more (Input.of 0 (0, 0)) (by rw [Task.step, if_neg fun hroom => hmax hroom.1]) (hinsert _)

theorem alone_get (key : Bytes) (clock : Clock) (draws : Nat → Nat → Nat × Nat) :
    Alone db (.get key clock.now)
      (answer .value (db.get key { clock := clock, draws := draws })) := by
  have hget := get_eq_getOnce db key { clock := clock, draws := draws }
  rw [← (twoPhase_get key clock.now).split_self clock.millis db] at hget
  rw [hget, TwoPhase.split]
  cases hread : db.getRead key clock.now clock.millis with
  | mk r db' =>
    cases r with
    | some r => exact .last (Input.of clock.millis (0, 0)) (by rw [Task.step, Input.of, hread])
    | none =>
      exact .more (Input.of clock.millis (0, 0)) (by rw [Task.step, Input.of, hread])
        (.last (Input.of clock.millis (0, 0)) rfl)

theorem alone_del (keys : List Bytes) (removed : Nat) :
    Alone db (.del keys removed) (.count (.ok (removed + (db.del keys).1)), (db.del keys).2) := by
  induction keys generalizing db removed with
  | nil => exact .last (Input.of 0 (0, 0)) rfl
  | cons key keys ih =>
    refine .more (Input.of 0 (0, 0)) rfl ?_
    have hrest := @ih (db.locked key (Cell.del key)).2 (removed + (db.locked key (Cell.del key)).1)
    rwa [Nat.add_assoc] at hrest

/-- The keys of the shards that are left. -/
theorem alone_keys (pattern : Bytes) (now : Instant) (left i : Nat) (result : List Bytes)
    (h : i + left = cfg.numShards) :
    Alone db (.keys pattern now i result)
      (.members (.ok (result ++
        ((List.finRange cfg.numShards).drop i).flatMap fun i => db.shardKeys i pattern now)), db) := by
  induction left generalizing i result with
  | zero =>
    have hend : (List.finRange cfg.numShards).drop i = [] :=
      List.drop_of_length_le (by rw [List.length_finRange]; omega)
    rw [hend, List.flatMap_nil, List.append_nil]
    exact .last (Input.of 0 (0, 0)) (by rw [Task.step, dif_neg (by omega)])
  | succ left ih =>
    have hi : i < cfg.numShards := by omega
    have hnext : (List.finRange cfg.numShards).drop i =
        ⟨i, hi⟩ :: (List.finRange cfg.numShards).drop (i + 1) := by
      rw [List.drop_eq_getElem_cons (by rwa [List.length_finRange]), List.getElem_finRange]
      rfl
    rw [hnext, List.flatMap_cons, ← List.append_assoc]
    exact .more (Input.of 0 (0, 0)) (by rw [Task.step, dif_pos hi]) (ih (i + 1) _ (by omega))

theorem alone_purge (sampleSize : Nat) (i : Fin cfg.numShards) (now : Instant) (draws : Nat → Nat) :
    Alone db (.purgeSample sampleSize i now)
      (.sampled ((db.purgeSample i now sampleSize draws).1,
          (db.purgeSample i now sampleSize draws).2.length),
        db.purgeRemove i now (db.purgeSample i now sampleSize draws).2) := by
  let d : Input := { millis := 0, underway := 0, draw := (0, 0), draws := draws }
  cases hsample : db.purgeSample i now sampleSize draws with
  | mk sampled expiredKeys =>
    cases expiredKeys with
    | nil =>
      have hnone : db.purgeRemove i now [] = db := by
        rw [purgeRemove, purgeKeys]
        exact congrArg (fun m : Metrics => { db with metrics := m })
          (Metrics.recordExpiration_zero db.metrics)
      rw [hnone]
      exact .last d (by rw [Task.step, hsample]; rfl)
    | cons key keys =>
      exact .more d (by rw [Task.step, hsample]; rfl) (.last d rfl)

/-- With no other thread in between, the sections of a method do what the method does. -/
theorem alone_perform (db : Db cfg) (env : Env) (op : Op) :
    Alone db (enter (callOf env op)) (db.perform env op) := by
  cases op with
  | on key op =>
    cases op with
    | get => exact alone_get key env.clock env.draws
    | set value expiresAt => exact alone_set key value expiresAt env
    | _ => exact .last (Input.of env.clock.millis (0, 0)) rfl
  | del keys =>
    have hdel : Alone db (.del keys 0)
        (.count (.ok (0 + (db.del keys).1)), (db.del keys).2) := alone_del keys 0
    rwa [Nat.zero_add] at hdel
  | keys pattern => exact alone_keys pattern env.clock.now cfg.numShards 0 [] (Nat.zero_add _)
  | purge sampleSize shard draws => exact alone_purge sampleSize _ env.clock.now draws
  | evict sampleSize draws => exact alone_evict sampleSize draws rfl

end Alone

end Db

end InMemoryCache
