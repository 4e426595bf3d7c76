-- SUMMARY: One client's writes, and when a restart restores keys, values and deadlines.
import InMemoryCache.Aof.Rebuild
import InMemoryCache.Lib.Run

/-!
# Restarts

A request is logged as it was sent and executed again when the log is loaded. A relative
time to live then counts from the restart. The keyspace is restored at every later time
exactly if no request gave a key that was there a deadline yet to come.
-/

namespace InMemoryCache

open Lib Leased

/-! ## Requests that set a deadline -/

namespace Command

variable [Unicode]

/-- Replayed at any time, the record gives what is under `key` a deadline `d` after that
time; if there is no such time, the replay panics. -/
structure DatesFrom (cfg : Config) (f : Frame) (values : Values) (key : Bytes) (d : Duration) : Prop where
  pos : 0 < d
  dated : ∀ t, Instant.add t d ≠ none → ∃ cmd v, fromFrame t f = .ok cmd ∧
    cmd.effect t key ((values key).map persistent) = some { value := v, deadline := some (t + d) }
  panics : ∀ ctx : Ctx, Instant.add ctx.clock.now d = none →
    fromFrame ctx.clock.now f = .panic ∨ ∃ cmd, fromFrame ctx.clock.now f = .ok cmd ∧
      ∀ db : Db cfg, db.Holds ctx.clock.now values → (cmd.apply ctx db).1 = none

theorem datesFrom_set {cfg : Config} {key value : Bytes} {d : Duration} {f : Frame} (values : Values) (hpos : 0 < d)
    (hf : ∀ t, fromFrame t f = Request.resolve t (.set key value (some d))) :
    DatesFrom cfg f values key d where
  pos := hpos
  dated t ht := by
    have hadd : Instant.add t d = some (t + d) := by
      cases hadd : Instant.add t d with
      | none => exact absurd hadd ht
      | some t' => rw [Instant.add_eq_some hadd]
    refine ⟨.set { key := key, value := value, expiresAt := some (t + d) }, .string value, ?_, ?_⟩
    · rw [hf, Request.resolve, Cmd.deadline, hadd]
      rfl
    · exact if_pos rfl
  panics ctx hover := by
    refine .inl ?_
    rw [hf, Request.resolve, Cmd.deadline, hover]
    rfl

theorem datesFrom_expire {cfg : Config} {c : Cmd.Expire} {f : Frame} {values : Values} (hne : c.duration ≠ 0)
    (hpresent : present values c.key) (hf : ∀ t, fromFrame t f = .ok (.expire c)) :
    DatesFrom cfg f values c.key c.duration where
  pos := Nat.pos_of_ne_zero hne
  dated t ht := by
    obtain ⟨v, hv⟩ := Option.ne_none_iff_exists'.mp hpresent
    refine ⟨.expire c, v, hf t, ?_⟩
    show (if c.key = c.key then (Item.expireIn c.duration t _).2 else _) = _
    rw [if_pos rfl, hv, Option.map_some, Item.expireIn]
    cases hadd : Instant.add t c.duration with
    | none => exact absurd hadd ht
    | some t' => rw [Instant.add_eq_some hadd]; rfl
  panics ctx hover := by
    refine .inr ⟨.expire c, hf _, fun db hdb => ?_⟩
    obtain ⟨v, hv⟩ := Option.ne_none_iff_exists'.mp hpresent
    have hanswer : (db.expire c.key c.duration ctx.toEnv).1 = none := by
      rw [Db.expire_eq, hdb _ le_rfl, hv, Option.map_some, Item.expireIn, hover]
    show ((db.expire c.key c.duration ctx.toEnv).1).map Frame.ofBool = none
    rw [hanswer]
    rfl

/-- A request that sets a deadline does so whenever it is executed. -/
theorem datesFrom_of_dates (cfg : Config) {cmd : Command} {f : Frame} {now : Instant} {values : Values}
    (hcmd : fromFrame now f = .ok cmd) (hdates : cmd.Dates now (present values)) :
    ∃ key d, DatesFrom cfg f values key d := by
  obtain ⟨r, hr, hplain⟩ := fromFrame_request f
  have hnow := hcmd
  rw [hr now] at hnow
  obtain ⟨q, rfl, hq⟩ := Outcome.bind_eq_ok.mp hnow
  cases q with
  | plain c =>
    cases hq
    cases cmd with
    | set c => exact absurd rfl (hplain _ rfl c)
    | expire c =>
      exact ⟨c.key, c.duration, datesFrom_expire hdates.1 hdates.2 hr⟩
    | _ => cases hdates
  | set key value duration =>
    obtain ⟨expiresAt, hexp, hset⟩ := Outcome.bind_eq_ok.mp hq
    cases hset
    obtain ⟨t, ht, hlt⟩ := hdates
    cases duration with
    | none => cases hexp; cases ht
    | some d =>
      obtain ⟨t', hadd, ht'⟩ := Outcome.bind_eq_ok.mp hexp
      cases ht'
      cases ht
      have hadd := Outcome.ofChecked_eq_ok.mp hadd
      have hpos : 0 < d := by
        rw [Instant.add_eq_some hadd] at hlt
        exact Nat.pos_of_lt_add_right hlt
      exact ⟨key, d, datesFrom_set values hpos hr⟩

end Command

/-! ## One client -/

/-- The server as one client uses it: what it recorded and what it stores. -/
structure Node (cfg : Config) where
  now : Instant
  log : List Frame
  db : Db cfg

namespace Node

variable {cfg : Config}

def start : Node cfg where
  now := 0
  log := []
  db := Db.empty

section Runs

variable [Unicode]

/-- Take a request: record it, if it is a write, and execute it. -/
def serve (n : Node cfg) (e : Ctx × Frame) : Node cfg :=
  match Command.fromFrame e.1.clock.now e.2 with
  | .ok cmd =>
    { now := e.1.clock.now, log := if cmd.isWrite then n.log ++ [e.2] else n.log,
      db := (cmd.apply e.1 n.db).2 }
  | _ => n

/-- A write command off a socket, at a time not earlier than those before. -/
structure Valid (n : Node cfg) (e : Ctx × Frame) : Prop where
  le : n.now ≤ e.1.clock.now
  time : e.1.clock.now.Valid
  received : Aof.Received e.2
  write : ∃ cmd, Command.fromFrame e.1.clock.now e.2 = .ok cmd ∧ cmd.isWrite = true

/-- The request gives a key that is there a deadline yet to come: a `SET` with a time to
live, or an `EXPIRE` of a live key, that is not zero. -/
def Dates (n : Node cfg) (e : Ctx × Frame) : Prop :=
  ∃ cmd, Command.fromFrame e.1.clock.now e.2 = .ok cmd ∧
    cmd.Dates e.1.clock.now fun key => n.db.item e.1.clock.now key ≠ none

/-- A restart at time `t` loads exactly the live keys, values and deadlines that the
server would have at that time. -/
def Restores (n : Node cfg) (t : Instant) : Prop :=
  ∀ ctx : Nat → Ctx, (∀ i, (ctx i).clock.now = t) → ∃ db : Db cfg,
    Aof.load ctx (Aof.start [] n.log) Db.empty = (.ok n.log.length, db) ∧
      ∀ key, db.item t key = n.db.item t key

/-! ## Without deadlines -/

/-- The store holds values that the log rebuilds. -/
structure Tracks (n : Node cfg) (values : Values) : Prop where
  holds : n.db.Holds n.now values
  rebuilds : Aof.Rebuilds (fun _ => none) n.log values
  encodable : ∀ f ∈ n.log, Aof.Encodable f

theorem tracks_start : Tracks (start : Node cfg) fun _ => none where
  holds := Db.holds_empty 0
  rebuilds := .nil _
  encodable := List.forall_mem_nil _

theorem serve_eq {n : Node cfg} {e : Ctx × Frame} {cmd : Command}
    (hcmd : Command.fromFrame e.1.clock.now e.2 = .ok cmd) (hwrite : cmd.isWrite = true) :
    n.serve e =
      { now := e.1.clock.now, log := n.log ++ [e.2], db := (cmd.apply e.1 n.db).2 } := by
  rw [serve, hcmd]
  dsimp only
  rw [if_pos hwrite]

/-- The keys with a live item are those that hold a value. -/
theorem Tracks.present_eq {n : Node cfg} {values : Values} (h : n.Tracks values) {now : Instant}
    (hle : n.now ≤ now) :
    (fun key => n.db.item now key ≠ none) = Command.present values := by
  funext key
  rw [h.holds now hle, Command.present, ne_eq, ne_eq, Option.map_eq_none_iff]

theorem Tracks.serve (hmax : cfg.maxmemory = 0) {n : Node cfg} {values : Values}
    (h : n.Tracks values) {e : Ctx × Frame} (hvalid : n.Valid e) (hdates : ¬ n.Dates e) :
    ∃ values', (n.serve e).Tracks values' := by
  obtain ⟨cmd, hcmd, hwrite⟩ := hvalid.write
  have hnot : ¬ cmd.Dates e.1.clock.now (Command.present values) := fun hd =>
    hdates ⟨cmd, hcmd, (h.present_eq hvalid.le).symm ▸ hd⟩
  refine ⟨cmd.update e.1.clock.now values, ?_⟩
  rw [serve_eq hcmd hwrite]
  refine ⟨h.holds.apply hmax hvalid.le hnot, h.rebuilds.snoc fun t ht => ?_, ?_⟩
  · exact Command.meansAt_of_not_dates hcmd hnot hvalid.time ht
  · intro f hf
    rcases List.mem_append.mp hf with hf | hf
    · exact h.encodable f hf
    · cases List.mem_singleton.mp hf
      exact hvalid.received.encodable

theorem Tracks.restores (hmax : cfg.maxmemory = 0) {n : Node cfg} {values : Values}
    (h : n.Tracks values) {t : Instant} (ht : t.Valid) (hle : n.now ≤ t) : n.Restores t := by
  intro ctx hctx
  obtain ⟨db, hload, hdb⟩ :=
    Aof.load_of_rebuilds hmax (Aof.clocked_of_eq hctx ht) h.encodable h.rebuilds
  refine ⟨db, hload, fun key => ?_⟩
  rw [hdb t (hctx _).le key, h.holds t hle key]

/-! ## With a deadline -/

/-- Replaying one more record executes its command on what the log rebuilt. -/
theorem Tracks.load_snoc (hmax : cfg.maxmemory = 0) {n : Node cfg} {values : Values}
    (h : n.Tracks values) {f : Frame} (hf : Aof.Encodable f) {t : Instant} (ht : t.Valid)
    (ctx : Nat → Ctx) (hctx : ∀ i, (ctx i).clock.now = t) :
    ∃ db : Db cfg, db.Holds t values ∧
      Aof.load ctx (Aof.start [] (n.log ++ [f])) (Db.empty : Db cfg) =
        Aof.replayFrom ctx n.log.length n.log.length [f] db := by
  obtain ⟨db, hload, hdb⟩ :=
    Aof.load_of_rebuilds hmax (Aof.clocked_of_eq hctx ht) h.encodable h.rebuilds
  rw [hctx] at hdb
  rw [Aof.load_start h.encodable] at hload
  refine ⟨db, hdb, ?_⟩
  have hencodable : ∀ g ∈ n.log ++ [f], Aof.Encodable g := by
    intro g hg
    rcases List.mem_append.mp hg with hg | hg
    · exact h.encodable g hg
    · exact List.mem_singleton.mp hg ▸ hf
  rw [Aof.load_start hencodable, Aof.replay, Aof.replayFrom_append, ← Aof.replay, hload,
    Nat.zero_add]

/-- A restart that restores a node with one more record replayed that record. -/
theorem Tracks.replayed (hmax : cfg.maxmemory = 0) {n : Node cfg} {values : Values}
    (h : n.Tracks values) {f : Frame} (hf : Aof.Encodable f) {t : Instant} (ht : t.Valid)
    {now : Instant} {db : Db cfg}
    (hrestores : Restores { now := now, log := n.log ++ [f], db := db } t) :
    ∃ (db₀ db₁ : Db cfg) (cmd : Command) (reply : Frame), db₀.Holds t values ∧
      Command.fromFrame t f = .ok cmd ∧ cmd.apply (.reading t) db₀ = (some reply, db₁) ∧
        ∀ key, db₁.item t key = db.item t key := by
  obtain ⟨db₁, hload, hitems⟩ := hrestores (fun _ => .reading t) fun _ => rfl
  obtain ⟨db₀, hdb₀, hsnoc⟩ := h.load_snoc hmax hf ht (fun _ => .reading t) fun _ => rfl
  have hnow : (Ctx.reading t).clock.now = t := rfl
  rw [hsnoc, Aof.replayFrom, hnow] at hload
  cases hparse : Command.fromFrame t f with
  | ok cmd =>
    rw [hparse] at hload
    dsimp only at hload
    cases happly : cmd.apply (.reading t) db₀ with
    | mk reply db' =>
      rw [happly] at hload
      cases reply with
      | some r =>
        obtain rfl : db' = db₁ := congrArg Prod.snd hload
        exact ⟨db₀, db', cmd, r, hdb₀, rfl, happly, hitems⟩
      | none => cases hload
  | err e =>
    rw [hparse] at hload
    have hcount : n.log.length = (n.log ++ [f]).length := Outcome.ok.inj (congrArg Prod.fst hload)
    rw [List.length_append, List.length_singleton] at hcount
    omega
  | panic =>
    rw [hparse] at hload
    cases hload

/-- A replay for which the deadline overflows does not finish. -/
theorem Tracks.not_restores_of_overflow (hmax : cfg.maxmemory = 0) {n : Node cfg} {values : Values}
    (h : n.Tracks values) {f : Frame} (hf : Aof.Encodable f) {key : Bytes} {d : Duration}
    (hfrom : Command.DatesFrom cfg f values key d) {t : Instant} (ht : t.Valid)
    (hover : Instant.add t d = none) {now : Instant} {db : Db cfg} :
    ¬ Restores { now := now, log := n.log ++ [f], db := db } t := by
  intro hrestores
  obtain ⟨db₀, db₁, cmd, reply, hdb₀, hparse, happly, -⟩ := h.replayed hmax hf ht hrestores
  rcases hfrom.panics (.reading t) hover with hpanic | ⟨cmd', hcmd', hnone⟩
  · have hboth := hparse.symm.trans hpanic
    cases hboth
  · have hboth := Outcome.ok.inj (hparse.symm.trans hcmd')
    have hreply := hnone db₀ hdb₀
    rw [← hboth, happly] at hreply
    cases hreply

/-- Restored at `t`, a request that sets a deadline has set it from `t` on. -/
theorem Tracks.deadline_of_restores (hmax : cfg.maxmemory = 0) {n : Node cfg} {values : Values}
    (h : n.Tracks values) {f : Frame} (hf : Aof.Encodable f) {key : Bytes} {d : Duration}
    (hfrom : Command.DatesFrom cfg f values key d) {t : Instant} (ht : t.Valid) {now : Instant}
    {db : Db cfg} (hrestores : Restores { now := now, log := n.log ++ [f], db := db } t) :
    ∃ v, db.item t key = some { value := v, deadline := some (t + d) } := by
  have hadd : Instant.add t d ≠ none := fun hover =>
    h.not_restores_of_overflow hmax hf hfrom ht hover hrestores
  obtain ⟨db₀, db₁, cmd, reply, hdb₀, hparse, happly, hitems⟩ := h.replayed hmax hf ht hrestores
  obtain ⟨cmd', v, hcmd', heffect⟩ := hfrom.dated t hadd
  cases Outcome.ok.inj (hparse.symm.trans hcmd')
  have hitem := Command.item_apply hmax cmd (.reading t) db₀ key
  rw [happly] at hitem
  have hnow : (Ctx.reading t).clock.now = t := rfl
  rw [hnow, hdb₀ t le_rfl key, heffect] at hitem
  refine ⟨v, (hitems key).symm.trans (hitem.trans (visible_of_live ?_))⟩
  rw [live, Option.all_some]
  exact decide_eq_true (Nat.lt_add_of_pos_right hfrom.pos)

/-- A request that sets a deadline is not restored: a moment later the deadline is a
moment too late, or the replay panics. -/
theorem Tracks.not_restores (hmax : cfg.maxmemory = 0) {n : Node cfg} {values : Values}
    (h : n.Tracks values) {e : Ctx × Frame} (hvalid : n.Valid e) (hdates : n.Dates e) :
    ∃ t : Instant, t.Valid ∧ (n.serve e).now ≤ t ∧ ¬ (n.serve e).Restores t := by
  obtain ⟨cmd, hcmd, hd⟩ := hdates
  rw [h.present_eq hvalid.le] at hd
  obtain ⟨key, d, hfrom⟩ := Command.datesFrom_of_dates cfg hcmd hd
  obtain ⟨cmd', hcmd', hwrite⟩ := hvalid.write
  rw [hcmd, Outcome.ok.injEq] at hcmd'
  subst hcmd'
  rw [serve_eq hcmd hwrite]
  have hencodable := hvalid.received.encodable
  cases hover : Instant.add e.1.clock.now d with
  | none =>
    exact ⟨e.1.clock.now, hvalid.time, le_rfl,
      h.not_restores_of_overflow hmax hencodable hfrom hvalid.time hover⟩
  | some d' =>
    have hadd : Instant.add e.1.clock.now d ≠ none := by
      rw [hover]
      exact Option.some_ne_none d'
    have ht : Instant.Valid (e.1.clock.now + 1) :=
      (Instant.add_ne_none.mp hadd).of_le (Nat.add_le_add_left hfrom.pos _)
    refine ⟨e.1.clock.now + 1, ht, Nat.le_succ _, fun hrestores => ?_⟩
    -- the original counts from the moment of the request, the restored from a moment later
    obtain ⟨v, hreplayed⟩ := h.deadline_of_restores hmax hencodable hfrom ht hrestores
    obtain ⟨cmd', w, hcmd', hlive⟩ := hfrom.dated e.1.clock.now hadd
    cases Outcome.ok.inj (hcmd.symm.trans hcmd')
    have horiginal : (cmd.apply e.1 n.db).2.item (e.1.clock.now + 1) key =
        visible (e.1.clock.now + 1) (some { value := w, deadline := some (e.1.clock.now + d) }) := by
      rw [Db.item_of_le (Nat.le_succ e.1.clock.now), Command.item_apply hmax,
        h.holds _ hvalid.le key, hlive, visible_visible (Nat.le_succ _)]
    rw [horiginal] at hreplayed
    have hsame := Option.some.inj (Option.filter_eq_some_iff.mp hreplayed).1
    have hdeadline := Option.some.inj (congrArg Leased.deadline hsame)
    exact absurd hdeadline (Nat.add_lt_add_right (Nat.lt_succ_self e.1.clock.now) d).ne

/-! ## Whole runs -/

/-- While no request sets a deadline, the log rebuilds what the store holds. -/
theorem tracks_run (hmax : cfg.maxmemory = 0) {es : List (Ctx × Frame)}
    (hvalid : Allowed serve Valid (start : Node cfg) es)
    (hdates : Allowed serve (fun n e => ¬ n.Dates e) (start : Node cfg) es) :
    ∃ values, (runAll serve (start : Node cfg) es).Tracks values := by
  have hstep : ∀ (n : Node cfg) e, (∃ values, n.Tracks values) → (n.Valid e ∧ ¬ n.Dates e) →
      ∃ values, (n.serve e).Tracks values := by
    rintro n e ⟨values, h⟩ ⟨hv, hd⟩
    exact h.serve hmax hv hd
  exact (hvalid.and hdates).invariant hstep ⟨_, tracks_start⟩

/-- Every state of a run is restored, whenever the restart is, if and only if no request
of the run set a deadline. -/
theorem restores_iff (hmax : cfg.maxmemory = 0) {es : List (Ctx × Frame)}
    (hvalid : Allowed serve Valid (start : Node cfg) es) :
    (∀ es', es' <+: es → ∀ t : Instant, t.Valid → (runAll serve (start : Node cfg) es').now ≤ t →
        (runAll serve (start : Node cfg) es').Restores t) ↔
      Allowed serve (fun n e => ¬ n.Dates e) (start : Node cfg) es := by
  constructor
  · intro h
    induction es using List.reverseRecOn with
    | nil => trivial
    | append_singleton es e ih =>
      obtain ⟨hfirst, hlast, -⟩ := allowed_append.mp hvalid
      have hbefore := ih hfirst fun es' hes' => h es' (hes'.trans (List.prefix_append es [e]))
      refine allowed_append.mpr ⟨hbefore, fun hdates => ?_, trivial⟩
      obtain ⟨values, htracks⟩ := tracks_run hmax hfirst hbefore
      obtain ⟨t, ht, hle, hnot⟩ := htracks.not_restores hmax hlast hdates
      have hrun : runAll serve (start : Node cfg) (es ++ [e]) = (runAll serve start es).serve e :=
        runAll_append es [e]
      exact hnot (hrun ▸ h (es ++ [e]) (List.prefix_refl _) t ht (hrun ▸ hle))
  · rintro hdates es' ⟨es'', rfl⟩ t ht hle
    obtain ⟨values, htracks⟩ := tracks_run hmax (allowed_append.mp hvalid).1
      (allowed_append.mp hdates).1
    exact htracks.restores hmax ht hle

end Runs

theorem not_dates [Unicode] {n : Node cfg} {e : Ctx × Frame} {cmd : Command}
    (hcmd : Command.fromFrame e.1.clock.now e.2 = .ok cmd)
    (h : ¬ cmd.Dates e.1.clock.now fun key => n.db.item e.1.clock.now key ≠ none) : ¬ n.Dates e := by
  rintro ⟨cmd', hcmd', hdates⟩
  rw [hcmd] at hcmd'
  cases hcmd'
  exact h hdates

/-- `SET k v`, `RPUSH l a b`, `LPOP l`, and an `EXPIRE` of a key that is not there. -/
def lasting : List (Ctx × Frame) :=
  [(.reading 0, .array [.bulk [83, 69, 84], .bulk [107], .bulk [118]]),
    (.reading 5, .array [.bulk [82, 80, 85, 83, 72], .bulk [108], .bulk [97], .bulk [98]]),
    (.reading 6, .array [.bulk [76, 80, 79, 80], .bulk [108]]),
    (.reading 7, .array [.bulk [69, 88, 80, 73, 82, 69], .bulk [109], .bulk [49]])]

/-- They leave the list `b`, and are restored wherever they stop and whenever the restart is. -/
theorem restores_iff_lasting :
    (runAll (@serve (.standard 0 List.length) Unicode.ascii) start lasting).db.item 7 [108] =
        some { value := .list [[98]], deadline := none } ∧
      ∀ es', es' <+: lasting → ∀ t : Instant, t.Valid →
        (runAll (@serve (.standard 0 List.length) Unicode.ascii) start es').now ≤ t →
          @Restores _ Unicode.ascii
            (runAll (@serve (.standard 0 List.length) Unicode.ascii) start es') t := by
  let _ := Unicode.ascii
  have hsoon : ∀ {t : Instant}, t < 10 ^ 9 → t.Valid := fun ht =>
    (Nat.div_eq_of_lt ht).trans_lt (by decide)
  have hset : Command.fromFrame 0 (.array [.bulk [83, 69, 84], .bulk [107], .bulk [118]]) =
      .ok (.set { key := [107], value := [118], expiresAt := none }) := by decide +kernel
  have hrpush : Command.fromFrame 5
      (.array [.bulk [82, 80, 85, 83, 72], .bulk [108], .bulk [97], .bulk [98]]) =
      .ok (.list (.rpush [108] [[97], [98]])) := by decide +kernel
  have hlpop : Command.fromFrame 6 (.array [.bulk [76, 80, 79, 80], .bulk [108]]) =
      .ok (.list (.lpop [108])) := by decide +kernel
  have hexpire : Command.fromFrame 7
      (.array [.bulk [69, 88, 80, 73, 82, 69], .bulk [109], .bulk [49]]) =
      .ok (.expire { key := [109], duration := 10 ^ 9 }) := by decide +kernel
  have hvalid : Allowed serve Valid (start : Node (.standard 0 List.length)) lasting :=
    ⟨⟨by decide +kernel, hsoon (by decide),
        Aof.received_of_clean ⟨trivial, trivial, trivial, trivial⟩ (by decide +kernel), _, hset, rfl⟩,
      ⟨by decide +kernel, hsoon (by decide),
        Aof.received_of_clean ⟨trivial, trivial, trivial, trivial, trivial⟩ (by decide +kernel), _,
        hrpush, rfl⟩,
      ⟨by decide +kernel, hsoon (by decide),
        Aof.received_of_clean ⟨trivial, trivial, trivial⟩ (by decide +kernel), _, hlpop, rfl⟩,
      ⟨by decide +kernel, hsoon (by decide),
        Aof.received_of_clean ⟨trivial, trivial, trivial, trivial⟩ (by decide +kernel), _, hexpire,
        rfl⟩, trivial⟩
  have hdates : Allowed serve (fun n e => ¬ n.Dates e) (start : Node (.standard 0 List.length))
      lasting :=
    ⟨not_dates hset (fun ⟨_, hnone, _⟩ => by cases hnone), not_dates hrpush id,
      not_dates hlpop id, not_dates hexpire fun h => h.2 (by decide +kernel), trivial⟩
  exact ⟨by decide +kernel, (restores_iff rfl hvalid).mpr hdates⟩

/-- `SET k v EX 1`, and a restart two seconds later: the key has come back. -/
theorem expired_key_comes_back :
    let f : Frame :=
      .array [.bulk [83, 69, 84], .bulk [107], .bulk [118], .bulk [69, 88], .bulk [49]]
    let n := runAll (@serve (.standard 0 List.length) Unicode.ascii) start [(.reading 0, f)]
    let t : Instant := 2 * 10 ^ 9
    Allowed (@serve (.standard 0 List.length) Unicode.ascii) (@Valid _ Unicode.ascii) start
        [(.reading 0, f)] ∧
      n.db.item t [107] = none ∧
      (@Aof.load Unicode.ascii (.standard 0 List.length) (fun _ => .reading t)
          (Aof.start [] n.log) Db.empty).2.item t [107] =
        some { value := .string [118], deadline := some (3 * 10 ^ 9) } ∧
      ¬ @Restores _ Unicode.ascii n t := by
  intro f n t
  let _ := Unicode.ascii
  have hreceived : Aof.Received f :=
    Aof.received_of_clean ⟨trivial, trivial, trivial, trivial, trivial, trivial⟩ (by decide +kernel)
  have hgone : n.db.item t [107] = none := by decide +kernel
  have hloaded : (@Aof.load Unicode.ascii (.standard 0 List.length) (fun _ => .reading t)
      (Aof.start [] n.log) Db.empty).2.item t [107] =
        some { value := .string [118], deadline := some (3 * 10 ^ 9) } := by
    have hlog : ∀ g ∈ [f], Aof.Encodable g := fun g hg =>
      List.mem_singleton.mp hg ▸ hreceived.encodable
    have hn : n.log = [f] := by decide +kernel
    rw [hn, @Aof.load_start Unicode.ascii (.standard 0 List.length) [f] hlog]
    decide +kernel
  refine ⟨⟨⟨le_rfl, show 0 / 10 ^ 9 < 2 ^ 63 by decide, hreceived, .set
    { key := [107], value := [118], expiresAt := some (10 ^ 9) }, by decide +kernel, rfl⟩, trivial⟩,
    hgone, hloaded, fun h => ?_⟩
  obtain ⟨db, hload, hitems⟩ := h (fun _ => .reading t) fun _ => rfl
  rw [hload, hitems, hgone] at hloaded
  cases hloaded

end Node

end InMemoryCache
