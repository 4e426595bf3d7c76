-- SUMMARY: Threads that share a list share one deque, and with LPUSH and RPOP a queue.
import InMemoryCache.Cmd.Lists
import InMemoryCache.Store.Interleaved

/-!
# Queues

Threads push to a list and pop from it while others work on other keys, the sweeper runs and
`KEYS` lists. In the order in which their sections run, the pushes and pops are a run of one
deque that is empty at first. With `LPUSH` and `RPOP` only, the list is a queue: what the
threads popped, followed by what is left, is what they pushed.
-/

namespace InMemoryCache

open Lib

-- ---------------------------------------------------------------------------
-- Operations on a list
-- ---------------------------------------------------------------------------

/-- The deque operation that an operation on a list is. -/
def KeyOp.deque? : KeyOp → Option (Deque.Op Bytes)
  | .lpush els => some (.pushFront els)
  | .rpush els => some (.pushBack els)
  | .lpop => some .popFront
  | .rpop => some .popBack
  | _ => none

/-- The operations that change no value and no deadline. -/
def KeyOp.looks : KeyOp → Bool
  | .get | .lrange _ _ | .hget _ | .hgetall | .smembers | .sismember _ | .ttl | .pttl => true
  | _ => false

/-- Looks and deque operations. -/
def KeyOp.sharesList (op : KeyOp) : Bool := op.looks || op.deque?.isSome

/-- Looks, `LPUSH` and `RPOP`. -/
def KeyOp.sharesQueue (op : KeyOp) : Bool := op.looks || op.deque?.any Deque.Op.queues

theorem KeyOp.sharesList_of_sharesQueue {op : KeyOp} (h : op.sharesQueue = true) :
    op.sharesList = true := by
  rcases Bool.or_eq_true_iff.mp h with hlooks | hqueues
  · exact Bool.or_eq_true_iff.mpr (.inl hlooks)
  · obtain ⟨q, hq, -⟩ := (Option.any_eq_true _ _).mp hqueues
    exact Bool.or_eq_true_iff.mpr (.inr (Option.isSome_of_mem hq))

theorem KeyOp.queues_of_sharesQueue {op : KeyOp} {q : Deque.Op Bytes} (h : op.sharesQueue = true)
    (hq : op.deque? = some q) : q.queues = true := by
  have hlooks : op.looks = false := by
    cases op with
    | lpush | rpush | lpop | rpop => rfl
    | _ => cases hq
  rwa [KeyOp.sharesQueue, hlooks, hq, Bool.false_or, Option.any_some] at h

def Answer.ofDeque : Deque.Reply Bytes → Answer
  | .length n => .count (.ok n)
  | .popped v => .value (.ok v)

/-- What a pop took. -/
def Answer.taken : Answer → List Bytes
  | .value (.ok (some v)) => [v]
  | _ => []

theorem Answer.taken_ofDeque (r : Deque.Reply Bytes) : (Answer.ofDeque r).taken = r.taken := by
  cases r with
  | length n => rfl
  | popped v => cases v <;> rfl

theorem Holds.touch {entry : CacheEntry} {list : List Bytes} (h : Holds (some entry) list)
    (millis : Nat) : Holds (some { entry with lastAccessed := millis }) list := by
  cases h with
  | stored list t => exact .stored list millis

theorem Holds.isExpired {entry : CacheEntry} {list : List Bytes} (h : Holds (some entry) list)
    (now : Instant) : entry.isExpired now = false := by
  cases h with
  | stored list t => rfl

namespace Cell

variable {key : Bytes} {clock : Clock} {c : Cell} {list : List Bytes}

theorem holds_lookup {ρ : Type} {absent : ρ} {read : DataType → Option (ρ × Bool)}
    (h : Holds c.slot list) : Holds (lookup absent read clock c).2.slot list := by
  rw [lookup]
  cases hslot : c.slot with
  | none => exact h
  | some entry =>
    rw [hslot] at h
    dsimp only
    rw [if_neg (by rw [h.isExpired]; exact Bool.false_ne_true)]
    cases read entry.data with
    | none => exact hslot ▸ h
    | some r =>
      dsimp only
      split <;> exact h.touch clock.millis

theorem holds_get (h : Holds c.slot list) : Holds (get key clock c).2.slot list := by
  rw [get, getRead]
  cases hslot : c.slot with
  | none => exact h
  | some entry =>
    rw [hslot] at h
    simp only [h.isExpired, Bool.false_eq_true, if_false]
    rw [getLive]
    split <;> exact h.touch clock.millis

theorem slot_remaining {unit : Duration → Nat} : (remaining unit clock c).2.slot = c.slot := by
  rw [remaining]
  cases hslot : c.slot with
  | none => exact hslot
  | some entry =>
    dsimp only
    split
    · split <;> exact hslot
    · exact hslot

theorem slot_purge_of_holds {now : Instant} (h : Holds c.slot list) :
    (purge key now c).2.slot = c.slot := by
  rw [purge]
  cases hslot : c.slot with
  | none => exact hslot
  | some entry =>
    rw [hslot] at h
    dsimp only
    rw [if_neg (by rw [h.isExpired]; exact Bool.false_ne_true)]
    exact hslot

theorem holds_looks {op : KeyOp} (h : Holds c.slot list) (hop : op.looks = true) :
    Holds (op.onCell key clock c).2.slot list := by
  cases op with
  | get => exact holds_get h
  | lrange | hget | hgetall | smembers | sismember => exact holds_lookup h
  | ttl | pttl => exact slot_remaining (c := c) ▸ h
  | _ => cases hop

/-- An operation on a list is the deque operation on what the slot holds. -/
theorem holds_deque {op : KeyOp} {q : Deque.Op Bytes} (h : Holds c.slot list)
    (hop : op.deque? = some q) :
    (op.onCell key clock c).1 = .ofDeque (Deque.step list q).1 ∧
      Holds (op.onCell key clock c).2.slot (Deque.step list q).2 := by
  cases op with
  | lpush els =>
    cases hop
    obtain ⟨hresult, hstate⟩ := @holds_upsert key clock c list h pushFront els
    rw [pushFront_eq] at hresult hstate
    exact ⟨congrArg Answer.count hresult, hstate⟩
  | rpush els =>
    cases hop
    obtain ⟨hresult, hstate⟩ := @holds_upsert key clock c list h pushBack els
    rw [pushBack_eq] at hresult hstate
    exact ⟨congrArg Answer.count hresult, hstate⟩
  | lpop =>
    cases hop
    obtain ⟨hresult, hstate⟩ := @holds_pop key clock c list h popFront rfl
    have hpop : popFront list = (list.head?, list.tail) := by cases list <;> rfl
    rw [hpop] at hresult hstate
    exact ⟨congrArg Answer.value hresult, hstate⟩
  | rpop =>
    cases hop
    obtain ⟨hresult, hstate⟩ := @holds_pop key clock c list h popBack rfl
    exact ⟨congrArg Answer.value hresult, hstate⟩
  | _ => cases hop

end Cell

namespace Db

variable {cfg : Config}

-- ---------------------------------------------------------------------------
-- Sections
-- ---------------------------------------------------------------------------

/-- A task that performs on a key no other operations than those `ok` admits, and evicts
nothing. -/
def Task.Leaves (ok : KeyOp → Bool) (key : Bytes) (task : Task cfg) : Prop :=
  match task with
  | .room c | .insert c => c.key ≠ key
  | .sample _ _ _ | .remove _ _ _ => False
  | .on k op _ => k = key → ok op = true
  | .del todo _ => key ∉ todo
  | _ => True

def Call.Leaves (ok : KeyOp → Bool) (key : Bytes) : Call → Prop
  | .on k op _ => k = key → ok op = true
  | .del todo => key ∉ todo
  | .evict _ => False
  | _ => True

/-- The deque operation on a key that a task's next section performs. -/
def Task.deque? (key : Bytes) : Task cfg → Option (Deque.Op Bytes)
  | .on k op _ => if k = key then op.deque? else none
  | _ => none

section Section

variable {db : Db cfg} {task : Task cfg} {key : Bytes} {list : List Bytes} {ok : KeyOp → Bool}

theorem leaves_enter (hset : ∀ value expiresAt, ok (.set value expiresAt) = false) {call : Call}
    (h : call.Leaves ok key) : (enter call : Task cfg).Leaves ok key := by
  cases call with
  | on k op clock =>
    cases op with
    | get => trivial
    | set value expiresAt =>
      intro hk
      have hok := h hk
      rw [hset] at hok
      cases hok
    | _ => exact h
  | _ => exact h

theorem leaves_next (hmax : cfg.maxmemory = 0) (h : task.Leaves ok key) {d : Input}
    {next : Task cfg} (hnext : (task.step d db).2 = .inl next) : next.Leaves ok key := by
  cases follows_of_step hnext with
  | full c hover => exact absurd hover (by omega)
  | fits => exact h
  | del k todo => exact fun hmem => h (List.mem_cons_of_mem k hmem)
  | getWrite | purgeRemove | keys => trivial
  | _ => exact h.elim

theorem Task.Leaves.mono (h : task.Leaves ok key) {ok' : KeyOp → Bool}
    (hok : ∀ op, ok op = true → ok' op = true) : task.Leaves ok' key := by
  cases task with
  | on k op now => exact fun hk => hok op (h hk)
  | _ => exact h

theorem Task.Leaves.admitted (h : task.Leaves ok key) {q : Deque.Op Bytes}
    (hq : task.deque? key = some q) : ∃ op, ok op = true ∧ op.deque? = some q := by
  cases task with
  | on k op now =>
    rw [Task.deque?, Option.ite_none_right_eq_some] at hq
    exact ⟨op, h hq.1, hq.2⟩
  | _ => cases hq

theorem holds_purgeKeys (h : db.HoldsList key list) (i : Fin cfg.numShards) (now : Instant)
    (keys : List Bytes) : (purgeKeys i now keys db).2.HoldsList key list := by
  induction keys generalizing db with
  | nil => exact h
  | cons k keys ih =>
    have hone : (db.lockedAt i k (Cell.purge k now)).2.HoldsList key list := by
      by_cases hk : key = k
      · subst hk
        show Holds (((db.putCellAt i key (Cell.purge key now (db.cellAt i key)).2).shards _).get?
          key) list
        rw [get?_putCellAt]
        split
        · rename_i hi
          obtain ⟨rfl, -⟩ := hi
          rw [Cell.slot_purge_of_holds (c := db.cellAt _ key) h]
          exact h
        · exact h
      · rw [HoldsList, entry_lockedAt_ne _ hk]
        exact h
    exact ih hone

/-- A section that performs a deque operation does it to the sequence. -/
theorem holds_section_deque (h : db.HoldsList key list) {q : Deque.Op Bytes}
    (hq : task.deque? key = some q) (d : Input) :
    (task.step d db).2 = .inr (.ofDeque (Deque.step list q).1) ∧
      (task.step d db).1.HoldsList key (Deque.step list q).2 := by
  cases task with
  | on k op now =>
    rw [Task.deque?, Option.ite_none_right_eq_some] at hq
    obtain ⟨rfl, hop⟩ := hq
    have hcell : Holds (db.cellAt (getShardIndex cfg k) k).slot list := h
    obtain ⟨hanswer, hslot⟩ := Cell.holds_deque hcell hop
    refine ⟨congrArg Sum.inr hanswer, ?_⟩
    show Holds ((db.locked k fun c => op.onCell k { now := now, millis := d.millis } c).2.entry k) _
    rw [entry_locked]
    exact hslot
  | _ => cases hq

/-- Any other section leaves the sequence as it is. -/
theorem holds_section (h : db.HoldsList key list) (htask : task.Leaves KeyOp.sharesList key)
    (hq : task.deque? key = none) (d : Input) : (task.step d db).1.HoldsList key list := by
  refine section_keeps (P := fun s => s.HoldsList key list) d h (fun k op clock hop => ?_)
    (fun i k hk => ?_) (fun m hs => hs) (fun i now todo => holds_purgeKeys h i now todo)
  · by_cases hk : key = k
    · subst hk
      have hlooks : op.looks = true := by
        cases task with
        | get | getWrite =>
          cases hop
          rfl
        | insert c =>
          have hkey : c.key = key := congrArg Prod.fst (Option.some.inj hop)
          exact absurd hkey htask
        | on =>
          cases hop
          rw [Task.deque?, if_pos rfl] at hq
          have hshares : op.sharesList = true := htask rfl
          rwa [KeyOp.sharesList, hq, Option.isSome_none, Bool.or_false] at hshares
        | _ => cases hop
      rw [HoldsList, entry_locked]
      exact Cell.holds_looks h hlooks
    · rw [HoldsList, locked, entry_lockedAt_ne _ hk]
      exact h
  · have hne : key ≠ k := by
      cases task with
      | remove => exact htask.elim
      | del todo removed =>
        cases todo with
        | nil => cases hk
        | cons k' todo =>
          cases hk
          exact fun hkey => htask (hkey ▸ List.mem_cons_self)
      | _ => cases hk
    rw [HoldsList, entry_lockedAt_ne _ hne]
    exact h

end Section

-- ---------------------------------------------------------------------------
-- Runs
-- ---------------------------------------------------------------------------

/-- The deque operation on a key that an event performs, with its thread and what the thread is
returned. -/
def performed (key : Bytes) (s : Pool cfg) : PoolEvent → List (Nat × Deque.Op Bytes × Answer)
  | .call _ _ => []
  | .step t d =>
    match s.running t with
    | none => []
    | some task =>
      match task.deque? key, (task.step d s.shared).2 with
      | some q, .inr a => [(t, q, a)]
      | _, _ => []

/-- The deque operations on a key in the order in which the sections of a run perform them. -/
def dequeOps (key : Bytes) (s : Pool cfg) (es : List PoolEvent) :
    List (Nat × Deque.Op Bytes × Answer) :=
  emitted (Threads.perform (methods cfg)) (performed key) s es

/-- Deque operations, with what they returned, lead from a sequence to the one a store holds. -/
structure Replays (ok : KeyOp → Bool) (key : Bytes) (list : List Bytes)
    (done : List (Nat × Deque.Op Bytes × Answer)) (s : Pool cfg) : Prop where
  answers : done.map (fun x => x.2.2) =
    (Deque.run list (done.map fun x => x.2.1)).1.map Answer.ofDeque
  keeps : s.Keeps (fun db => db.HoldsList key (Deque.run list (done.map fun x => x.2.1)).2)
    (Task.Leaves ok key)
  admitted : ∀ x ∈ done, ∃ op, ok op = true ∧ op.deque? = some x.2.1

section Runs

variable {key : Bytes} {list : List Bytes} {ok : KeyOp → Bool} {s : Pool cfg}

theorem performed_none (key : Bytes) (d : Input) {t : Nat} (h : s.running t = none) :
    performed key s (.step t d) = [] := by
  rw [performed, h]

theorem performed_other (d : Input) {t : Nat} {task : Task cfg} (h : s.running t = some task)
    (hq : task.deque? key = none) : performed key s (.step t d) = [] := by
  rw [performed, h]
  dsimp only
  rw [hq]

theorem performed_deque {d : Input} {t : Nat} {task : Task cfg} (h : s.running t = some task)
    {q : Deque.Op Bytes} (hq : task.deque? key = some q) {a : Answer}
    (ha : (task.step d s.shared).2 = .inr a) : performed key s (.step t d) = [(t, q, a)] := by
  rw [performed, h]
  dsimp only
  rw [hq, ha]

/-- An event keeps what tasks leave to a key. -/
theorem leaves_event (hmax : cfg.maxmemory = 0)
    (hset : ∀ value expiresAt, ok (.set value expiresAt) = false)
    (hs : s.Keeps (fun _ => True) (Task.Leaves ok key)) {e : PoolEvent}
    (he : ∀ t call, e = .call t call → call.Leaves ok key) :
    (s.perform (methods cfg) e).Keeps (fun _ => True) (Task.Leaves ok key) :=
  hs.perform (fun t call hcall => leaves_enter hset (he t call hcall))
    fun _ _ _ _ _ htask => ⟨trivial, fun _ hnext => leaves_next hmax htask hnext⟩

theorem replays_event (hmax : cfg.maxmemory = 0) (hok : ∀ op, ok op = true → op.sharesList = true)
    (hs : s.Keeps (fun db => db.HoldsList key list) (Task.Leaves ok key)) {e : PoolEvent}
    (he : ∀ t call, e = .call t call → call.Leaves ok key) :
    Replays ok key list (performed key s e) (s.perform (methods cfg) e) := by
  have hset : ∀ value expiresAt, ok (.set value expiresAt) = false := fun value expiresAt =>
    Bool.eq_false_iff.mpr fun hop => Bool.false_ne_true (hok _ hop)
  have htasks := (leaves_event hmax hset ⟨trivial, hs.tasks⟩ he).tasks
  have hidle : ∀ done, done = [] → (s.perform (methods cfg) e).shared.HoldsList key list →
      Replays ok key list done (s.perform (methods cfg) e) := by
    rintro done rfl hshared
    exact ⟨rfl, ⟨hshared, htasks⟩, fun x hx => by cases hx⟩
  cases e with
  | call t call =>
    refine hidle _ rfl ?_
    rw [Threads.perform]
    split <;> exact hs.shared
  | step t d =>
    have hshared := Threads.shared_perform_step (methods cfg) s t d
    cases hrunning : s.running t with
    | none =>
      refine hidle _ (performed_none key d hrunning) ?_
      rw [hshared, hrunning]
      exact hs.shared
    | some task =>
      have htask := hs.tasks t task hrunning
      rw [hrunning, Option.elim_some] at hshared
      cases hq : task.deque? key with
      | none =>
        refine hidle _ (performed_other d hrunning hq) ?_
        rw [hshared]
        exact holds_section hs.shared (htask.mono hok) hq d
      | some q =>
        obtain ⟨hanswer, hstate⟩ := holds_section_deque hs.shared hq d
        rw [performed_deque hrunning hq hanswer]
        refine ⟨rfl, ⟨?_, htasks⟩, fun x hx => ?_⟩
        · rw [hshared]
          exact hstate
        · cases List.mem_singleton.mp hx
          exact htask.admitted hq

theorem replays_run (hmax : cfg.maxmemory = 0) (hok : ∀ op, ok op = true → op.sharesList = true)
    (hs : s.Keeps (fun db => db.HoldsList key list) (Task.Leaves ok key)) {es : List PoolEvent}
    (h : ∀ t call, .call t call ∈ es → call.Leaves ok key) :
    Replays ok key list (dequeOps key s es) (runAll (Threads.perform (methods cfg)) s es) := by
  induction es generalizing s list with
  | nil => exact ⟨rfl, hs, fun x hx => by cases hx⟩
  | cons e es ih =>
    have hone := replays_event hmax hok hs fun t call he => h t call (he ▸ List.mem_cons_self)
    have hrest := ih hone.keeps fun t call hmem => h t call (List.mem_cons_of_mem e hmem)
    have hrun := Deque.run_append list ((performed key s e).map fun x => x.2.1)
      ((dequeOps key (s.perform (methods cfg) e) es).map fun x => x.2.1)
    refine ⟨?_, ?_, fun x hx => ?_⟩
    · rw [dequeOps, emitted, List.map_append, List.map_append, ← dequeOps, hrun, List.map_append,
        hone.answers, hrest.answers]
    · rw [dequeOps, emitted, List.map_append, ← dequeOps, hrun]
      exact hrest.keeps
    · rcases List.mem_append.mp hx with hx | hx
      · exact hone.admitted x hx
      · exact hrest.admitted x hx

/-- What an operation returned, its caller saw. -/
theorem sublist_trace_event (s : Pool cfg) (e : PoolEvent) :
    List.Sublist (s.trace ++ (performed key s e).map fun x => (x.1, .inr x.2.2))
      (s.perform (methods cfg) e).trace := by
  cases e with
  | call t call =>
    rw [performed, List.map_nil, List.append_nil, Threads.perform]
    split
    · exact List.sublist_append_left _ _
    · exact List.Sublist.refl _
  | step t d =>
    cases hrunning : s.running t with
    | none =>
      rw [performed_none key d hrunning, List.map_nil, List.append_nil, Threads.perform, hrunning]
    | some task =>
      rw [Threads.trace_perform_step hrunning]
      refine List.Sublist.append_left ?_ _
      rw [performed, hrunning]
      dsimp only
      cases hnext : (task.step d s.shared).2 with
      | inl next => 
        rw [show ((methods cfg).step d s.shared task).2 = _ from hnext]
        cases task.deque? key <;> exact List.Sublist.refl _
      | inr a =>
        rw [show ((methods cfg).step d s.shared task).2 = _ from hnext]
        cases task.deque? key with
        | none => exact List.nil_sublist _
        | some q => exact List.Sublist.refl _

theorem sublist_trace (s : Pool cfg) (es : List PoolEvent) :
    List.Sublist (s.trace ++ (dequeOps key s es).map fun x => (x.1, .inr x.2.2))
      (runAll (Threads.perform (methods cfg)) s es).trace := by
  induction es generalizing s with
  | nil =>
    rw [dequeOps, emitted, List.map_nil, List.append_nil]
    exact List.Sublist.refl _
  | cons e es ih =>
    refine List.Sublist.trans ?_ (ih (s.perform (methods cfg) e))
    rw [dequeOps, emitted, List.map_append, ← List.append_assoc, ← dequeOps]
    exact (sublist_trace_event s e).append_right _

theorem keeps_start_list :
    (Threads.start empty : Pool cfg).Keeps (fun db => db.HoldsList key []) (Task.Leaves ok key) :=
  Threads.keeps_start .absent

/-- Threads that push to a list and pop from it, while others look at it or work on other keys,
share one deque. In the order of their sections each gets what the deque returns, and the list
is what the deque has become. -/
theorem deque_interleave (hmax : cfg.maxmemory = 0) {key : Bytes} {es : List PoolEvent}
    (h : ∀ t call, .call t call ∈ es → call.Leaves KeyOp.sharesList key) :
    let done := dequeOps key (Threads.start empty : Pool cfg) es
    let deque := Deque.run [] (done.map fun x => x.2.1)
    done.map (fun x => x.2.2) = deque.1.map Answer.ofDeque ∧
      (interleave es : Pool cfg).shared.HoldsList key deque.2 ∧
      List.Sublist (done.map fun x => (x.1, .inr x.2.2)) (interleave es : Pool cfg).trace := by
  have hrun := replays_run hmax (fun _ hop => hop) keeps_start_list h
  exact ⟨hrun.answers, hrun.keeps.shared, sublist_trace (Threads.start empty) es⟩

/-- Two threads push, a third one pops what was pushed first. -/
theorem deque_interleave_three_threads :
    let clock : Clock := { now := 0, millis := 0 }
    let es : List PoolEvent :=
      [.call 0 (.on [1] (.lpush [[2]]) clock), .call 1 (.on [1] (.rpush [[3]]) clock),
        .call 2 (.on [1] .lpop clock), .step 1 (.of 0 (0, 0)), .step 0 (.of 0 (0, 0)),
        .step 2 (.of 0 (0, 0))]
    let done := dequeOps [1] (Threads.start empty : Pool (.standard 0 List.length)) es
    let deque := Deque.run [] (done.map fun x => x.2.1)
    done.map (fun x => x.2.2) = deque.1.map Answer.ofDeque ∧
      (interleave es : Pool (.standard 0 List.length)).shared.HoldsList [1] deque.2 ∧
      List.Sublist (done.map fun x => (x.1, .inr x.2.2))
        (interleave es : Pool (.standard 0 List.length)).trace := by
  intro clock es
  refine deque_interleave rfl fun t call hcall => ?_
  simp only [es, List.mem_cons, Threads.Event.call.injEq, List.not_mem_nil, or_false,
    reduceCtorEq] at hcall
  rcases hcall with ⟨-, rfl⟩ | ⟨-, rfl⟩ | ⟨-, rfl⟩ <;> exact fun _ => rfl

/-- A list that threads use with `LPUSH` and `RPOP` is a queue: what they popped, followed by
what is left, is what they pushed, in the order of their sections. -/
theorem queue_interleave (hmax : cfg.maxmemory = 0) {key : Bytes} {es : List PoolEvent}
    (h : ∀ t call, .call t call ∈ es → call.Leaves KeyOp.sharesQueue key) :
    let done := dequeOps key (Threads.start empty : Pool cfg) es
    ∃ list, (interleave es : Pool cfg).shared.HoldsList key list ∧
      done.flatMap (fun x => x.2.1.pushed) = done.flatMap (fun x => x.2.2.taken) ++ list.reverse := by
  have hrun := replays_run hmax (fun _ hop => KeyOp.sharesList_of_sharesQueue hop) keeps_start_list h
  intro done
  have hqueues : ∀ q ∈ done.map fun x => x.2.1, q.queues = true := by
    intro q hq
    obtain ⟨x, hx, rfl⟩ := List.mem_map.mp hq
    obtain ⟨op, hop, hdeque⟩ := hrun.admitted x hx
    exact KeyOp.queues_of_sharesQueue hop hdeque
  refine ⟨_, hrun.keeps.shared, ?_⟩
  have hqueue := Deque.queue_run [] hqueues
  have htaken : done.flatMap (fun x => x.2.2.taken) =
      (Deque.run [] (done.map fun x => x.2.1)).1.flatMap Deque.Reply.taken := by
    have hanswers := congrArg (List.flatMap Answer.taken) hrun.answers
    rw [List.flatMap_map, List.flatMap_map] at hanswers
    exact hanswers.trans (List.flatMap_congr fun r _ => Answer.taken_ofDeque r)
  rw [htaken]
  rw [List.flatMap_map, List.reverse_nil, List.nil_append] at hqueue
  exact hqueue

/-- Two threads push and two pop; the second of the pops finds nothing. -/
theorem queue_interleave_two_pops :
    let clock : Clock := { now := 0, millis := 0 }
    let d : Input := .of 0 (0, 0)
    let es : List PoolEvent :=
      [.call 0 (.on [1] (.lpush [[2], [3]]) clock), .call 1 (.on [1] .rpop clock),
        .call 2 (.on [1] .rpop clock), .call 3 (.on [1] (.lpush [[4]]) clock), .step 3 d, .step 2 d,
        .step 1 d, .step 0 d]
    let done := dequeOps [1] (Threads.start empty : Pool (.standard 0 List.length)) es
    ∃ list, (interleave es : Pool (.standard 0 List.length)).shared.HoldsList [1] list ∧
      done.flatMap (fun x => x.2.1.pushed) = done.flatMap (fun x => x.2.2.taken) ++ list.reverse := by
  intro clock d es
  refine queue_interleave rfl fun t call hcall => ?_
  simp only [es, List.mem_cons, Threads.Event.call.injEq, List.not_mem_nil, or_false,
    reduceCtorEq] at hcall
  rcases hcall with ⟨-, rfl⟩ | ⟨-, rfl⟩ | ⟨-, rfl⟩ | ⟨-, rfl⟩ <;> exact fun _ => rfl

end Runs

end Db

end InMemoryCache
