-- SUMMARY: Connections that record their commands and apply them later, and what a restart loads.
import InMemoryCache.Aof.Rebuild
import InMemoryCache.Lib.Journal
import InMemoryCache.Lib.Run
import Mathlib.Data.List.Forall2

/-!
# Connections side by side

A connection records a write command and applies it afterwards, and nothing keeps others
from coming in between. The log is in the order of the first steps and the store in the
order of the second ones. A command that overtakes an earlier record must commute with
it for a restart to load what the store holds.
-/

namespace InMemoryCache

open Lib

/-! ## Commands that commute -/

namespace Command

/-- A command changes nothing under the keys it does not name. -/
theorem update_of_not_mem {now : Instant} {cmd : Command} {key : Bytes} (h : key ∉ cmd.names)
    (values : Values) : cmd.update now values key = values key := by
  rw [update, effect_of_not_mem h, visible_persistent]
  cases values key with
  | none => rfl
  | some v => rfl

/-- What becomes of a key depends on that key only. -/
theorem update_congr {now : Instant} (cmd : Command) {key : Bytes} {v w : Values}
    (h : v key = w key) : cmd.update now v key = cmd.update now w key := by
  rw [update, update, h]

/-- Two commands make the same of any values, whichever comes first. Neither is to set a
time to live; then the time does not matter either. -/
def Commutes (a b : Command) : Prop := Lib.Commutes (update 0) Values.Same a b

theorem congruence_update : Congruence (update 0) Values.Same where
  equivalence := Values.same_equivalence
  congr cmd _ _ h := cmd.same_update 0 h

/-- Commands that name different keys commute. -/
theorem commutes_of_disjoint {a b : Command} (h : ∀ key ∈ a.names, key ∉ b.names) :
    a.Commutes b := by
  intro values
  have heq : a.update 0 (b.update 0 values) = b.update 0 (a.update 0 values) := by
    funext key
    by_cases hkey : key ∈ a.names
    · calc a.update 0 (b.update 0 values) key
          = a.update 0 values key := update_congr a (update_of_not_mem (h key hkey) values)
        _ = b.update 0 (a.update 0 values) key := (update_of_not_mem (h key hkey) _).symm
    · calc a.update 0 (b.update 0 values) key
          = b.update 0 values key := update_of_not_mem hkey _
        _ = b.update 0 (a.update 0 values) key :=
          update_congr b (update_of_not_mem hkey values).symm
  rw [heq]
  exact Values.same_equivalence.refl _

end Command

/-! ## The system -/

/-- The server with its connections. `inFlight` are the commands recorded and not yet
applied, each with its connection, in the order of the log. -/
structure System (cfg : Config) where
  now : Instant
  log : List Frame
  inFlight : List (Nat × Command)
  db : Db cfg

namespace System

variable {cfg : Config}

/-- Nothing recorded, and nothing stored. -/
def start : System cfg where
  now := 0
  log := []
  inFlight := []
  db := Db.empty

/-- A connection receives a request and records it, or applies what it has recorded. -/
inductive Event where
  | record (conn : Nat) (ctx : Ctx) (frame : Frame)
  | apply (conn : Nat) (ctx : Ctx)

def Event.ctx : Event → Ctx
  | .record _ ctx _ => ctx
  | .apply _ ctx => ctx

/-- The commands in flight that were recorded before that of `conn`. -/
def earlier (conn : Nat) (s : System cfg) : List (Nat × Command) :=
  s.inFlight.takeWhile fun r => r.1 != conn

/-- The command of `conn` in flight, if there is one, and those recorded after it. -/
def onwards (conn : Nat) (s : System cfg) : List (Nat × Command) :=
  s.inFlight.dropWhile fun r => r.1 != conn

theorem inFlight_eq (conn : Nat) (s : System cfg) :
    s.inFlight = s.earlier conn ++ s.onwards conn :=
  List.takeWhile_append_dropWhile.symm

section Runs

variable [Unicode]

/-- The two steps that `process_connection` makes for a write command. A connection that
has one in flight takes no other request. -/
def perform (s : System cfg) : Event → System cfg
  | .record conn ctx frame =>
    if s.inFlight.any fun r => r.1 == conn then s
    else match Command.fromFrame ctx.clock.now frame with
      | .ok cmd =>
        if cmd.isWrite then
          { s with
            now := ctx.clock.now, log := s.log ++ [frame],
            inFlight := s.inFlight ++ [(conn, cmd)] }
        else s
      | _ => s
  | .apply conn ctx =>
    match s.onwards conn with
    | (_, cmd) :: later =>
      { s with
        now := ctx.clock.now, inFlight := s.earlier conn ++ later, db := (cmd.apply ctx s.db).2 }
    | [] => s

/-- Time does not run backwards, and requests come off a socket and set no time to live. -/
def Valid (s : System cfg) (e : Event) : Prop :=
  s.now ≤ e.ctx.clock.now ∧ match e with
    | .record _ ctx frame =>
      Aof.Received frame ∧ ∀ cmd, Command.fromFrame ctx.clock.now frame = .ok cmd → cmd.NoTtl
    | .apply _ _ => True

/-- A command is applied before an earlier record only if the two commute. -/
def InOrder (s : System cfg) : Event → Prop
  | .record _ _ _ => True
  | .apply conn _ => ∀ own later, s.onwards conn = own :: later →
      ∀ r ∈ s.earlier conn, own.2.Commutes r.2

/-- A restart, at whatever later times, loads the keyspace that the store shows. -/
def Recovers (s : System cfg) : Prop :=
  ∀ ctx, Aof.Clocked ctx → ∃ db : Db cfg,
    Aof.load ctx (Aof.start [] s.log) Db.empty = (.ok s.log.length, db) ∧
      ∀ t t', s.now ≤ t → (ctx s.log.length).clock.now ≤ t' →
        ∀ key, SameSlot (db.item t' key) (s.db.item t key)

/-! ## Log and store -/

/-- The frame was received as a request for the command, which sets no time to live. -/
structure Records (f : Frame) (cmd : Command) : Prop where
  received : Aof.Received f
  parsed : ∃ t, Command.fromFrame t f = .ok cmd
  noTtl : cmd.NoTtl

/-- The store holds `values`, which what is in flight completes to those of the log. -/
structure Tracks (s : System cfg) (values : Values) (cmds : List Command) : Prop where
  holds : s.db.Holds s.now values
  recorded : List.Forall₂ Records s.log cmds
  noTtl : ∀ r ∈ s.inFlight, r.2.NoTtl
  complete : Journal.Complete (Command.update 0) Values.Same (fun _ => none)
    { log := cmds, pending := s.inFlight.map Prod.snd, state := values }

theorem tracks_start : Tracks (start : System cfg) (fun _ => none) [] where
  holds := Db.holds_empty 0
  recorded := .nil
  noTtl := by simp [start]
  complete := Values.same_equivalence.refl _

theorem Tracks.record {s : System cfg} {values : Values} {cmds : List Command}
    (h : s.Tracks values cmds) {f : Frame} {cmd : Command} (hf : Records f cmd) {now : Instant}
    (hle : s.now ≤ now) (conn : Nat) :
    Tracks { s with now := now, log := s.log ++ [f], inFlight := s.inFlight ++ [(conn, cmd)] }
      values (cmds ++ [cmd]) where
  holds := h.holds.mono hle
  recorded := List.rel_append h.recorded (.cons hf .nil)
  noTtl r hr := by
    rcases List.mem_append.mp hr with hr | hr
    · exact h.noTtl r hr
    · cases List.mem_singleton.mp hr
      exact hf.noTtl
  complete := by
    rw [List.map_append]
    exact h.complete.record Command.congruence_update cmd

theorem Tracks.apply (hmax : cfg.maxmemory = 0) {s : System cfg} {values : Values}
    {cmds : List Command} (h : s.Tracks values cmds) {ctx : Ctx} (hle : s.now ≤ ctx.clock.now)
    {own : Nat × Command} {before after : List (Nat × Command)}
    (hsplit : s.inFlight = before ++ own :: after)
    (hcommute : ∀ r ∈ before, own.2.Commutes r.2) :
    Tracks
      { s with now := ctx.clock.now, inFlight := before ++ after, db := (own.2.apply ctx s.db).2 }
      (own.2.update 0 values) cmds := by
  have hown : own.2.NoTtl := h.noTtl own (by simp [hsplit])
  have hholds := h.holds.apply hmax hle (hown.not_dates ctx.clock.now _)
  have hpending : s.inFlight.map Prod.snd = before.map Prod.snd ++ own.2 :: after.map Prod.snd := by
    rw [hsplit, List.map_append, List.map_cons]
  have hcomplete := h.complete.apply Command.congruence_update hpending fun b hb => by
    obtain ⟨r, hr, rfl⟩ := List.mem_map.mp hb
    exact hcommute r hr
  refine ⟨hown.update_eq ctx.clock.now 0 values ▸ hholds, h.recorded, fun r hr => ?_, ?_⟩
  · refine h.noTtl r ?_
    rw [hsplit]
    rcases List.mem_append.mp hr with hr | hr
    · exact List.mem_append_left _ hr
    · exact List.mem_append_right _ (List.mem_cons_of_mem _ hr)
  · rw [List.map_append]
    exact hcomplete

/-- Some values and commands track the system. -/
def Tracked (s : System cfg) : Prop := ∃ values cmds, s.Tracks values cmds

theorem tracked_perform (hmax : cfg.maxmemory = 0) (s : System cfg) (e : Event) (h : s.Tracked)
    (hok : s.Valid e ∧ s.InOrder e) : (s.perform e).Tracked := by
  obtain ⟨values, cmds, h⟩ := h
  obtain ⟨⟨hle, hvalid⟩, horder⟩ := hok
  cases e with
  | record conn ctx frame =>
    rw [perform]
    split
    · exact ⟨values, cmds, h⟩
    · split
      · rename_i cmd hcmd
        split
        · exact ⟨values, cmds ++ [cmd],
            h.record ⟨hvalid.1, ⟨_, hcmd⟩, hvalid.2 cmd hcmd⟩ hle conn⟩
        · exact ⟨values, cmds, h⟩
      · exact ⟨values, cmds, h⟩
  | apply conn ctx =>
    rw [perform]
    split
    · rename_i c cmd later honwards
      have hsplit := s.inFlight_eq conn
      rw [honwards] at hsplit
      exact ⟨_, cmds, h.apply hmax hle hsplit (horder (c, cmd) later honwards)⟩
    · exact ⟨values, cmds, h⟩

/-- A log of commands without a time to live rebuilds what they make of the values. -/
theorem rebuilds_of_recorded {log : List Frame} {cmds : List Command}
    (h : List.Forall₂ Records log cmds) (v : Values) :
    Aof.Rebuilds v log (actAll (Command.update 0) v cmds) := by
  induction h generalizing v with
  | nil => exact .nil v
  | cons hf _ ih =>
    obtain ⟨now, hcmd⟩ := hf.parsed
    exact .cons (fun t _ => hf.noTtl.meansAt hcmd t v) (ih _)

theorem encodable_of_recorded {log : List Frame} {cmds : List Command}
    (h : List.Forall₂ Records log cmds) : ∀ f ∈ log, Aof.Encodable f := by
  induction h with
  | nil => exact List.forall_mem_nil _
  | cons hf _ ih => exact List.forall_mem_cons.mpr ⟨hf.received.encodable, ih⟩

theorem Tracks.recovers (hmax : cfg.maxmemory = 0) {s : System cfg} {values : Values}
    {cmds : List Command} (h : s.Tracks values cmds) (hquiet : s.inFlight = []) : s.Recovers := by
  have hsame := h.complete.state (by rw [hquiet]; rfl)
  intro ctx hctx
  obtain ⟨db, hload, hdb⟩ := Aof.load_of_rebuilds hmax hctx (encodable_of_recorded h.recorded)
    (rebuilds_of_recorded h.recorded fun _ => none)
  refine ⟨db, hload, fun t t' ht ht' key => ?_⟩
  rw [hdb t' ht' key, h.holds t ht key]
  exact sameSlot_persistent (Values.same_equivalence.symm hsame key)

/-- In a run in which a command is applied before an earlier record only if the two
commute, a restart loads the keyspace of the store once nothing is in flight. -/
theorem recovers_of_inOrder (hmax : cfg.maxmemory = 0) {es : List Event}
    (hvalid : Allowed perform Valid (start : System cfg) es)
    (horder : Allowed perform InOrder (start : System cfg) es)
    (hquiet : (runAll perform (start : System cfg) es).inFlight = []) :
    (runAll perform (start : System cfg) es).Recovers := by
  obtain ⟨values, cmds, h⟩ := (hvalid.and horder).invariant (tracked_perform hmax)
    ⟨_, _, tracks_start⟩
  exact h.recovers hmax hquiet

end Runs

/-! ## Two clients -/

/-- The request `SET key value` for a key and a value of one byte. -/
def setFrame (key value : UInt8) : Frame :=
  .array [.bulk [83, 69, 84], .bulk [key], .bulk [value]]

theorem length_record_setFrame (key value : UInt8) :
    (Aof.record (setFrame key value)).length = 27 := by
  with_unfolding_all rfl

theorem received_setFrame (key value : UInt8) : Aof.Received (setFrame key value) :=
  Aof.received_of_clean ⟨trivial, trivial, trivial, trivial⟩
    (lt_of_eq_of_lt (length_record_setFrame key value) (by decide))

theorem fromFrame_setFrame (now : Instant) (key value : UInt8) :
    @Command.fromFrame Unicode.ascii now (setFrame key value) =
      .ok (.set { key := [key], value := [value], expiresAt := none }) := rfl

/-- Two clients record a `SET` each, and apply them in the opposite order. -/
def crossed (key key' value value' : UInt8) : List Event :=
  [.record 0 (.reading 0) (setFrame key value), .record 1 (.reading 0) (setFrame key' value'),
    .apply 1 (.reading 0), .apply 0 (.reading 0)]

theorem valid_crossed (key key' value value' : UInt8) :
    Allowed (@perform cfg Unicode.ascii) (@Valid cfg Unicode.ascii) start
      (crossed key key' value value') := by
  have hnoTtl : ∀ (k v : UInt8) (cmd : Command),
      @Command.fromFrame Unicode.ascii 0 (setFrame k v) = .ok cmd → cmd.NoTtl := by
    intro k v cmd h
    rw [fromFrame_setFrame, Outcome.ok.injEq] at h
    cases h
    rfl
  exact ⟨⟨le_rfl, received_setFrame key value, hnoTtl key value⟩,
    ⟨le_rfl, received_setFrame key' value', hnoTtl key' value'⟩, ⟨le_rfl, trivial⟩,
    ⟨le_rfl, trivial⟩, trivial⟩

/-- `SET k a` and `SET j b`, applied in the opposite order. -/
theorem recovers_of_inOrder_crossed :
    @Recovers (.standard 0 List.length) Unicode.ascii
      (runAll (@perform (.standard 0 List.length) Unicode.ascii) start (crossed 107 106 97 98)) := by
  refine @recovers_of_inOrder (.standard 0 List.length) Unicode.ascii rfl _
    (valid_crossed 107 106 97 98) ⟨trivial, trivial, ?_, ?_, trivial⟩ rfl
  · intro own later honwards r hr
    cases honwards
    cases List.mem_singleton.mp hr
    exact Command.commutes_of_disjoint (by decide)
  · intro own later honwards r hr
    cases hr

/-- `SET k a` and `SET k b`, applied in the opposite order: the store has `a`, and a restart
loads `b`. -/
theorem crossed_not_recovers :
    let s := runAll (@perform (.standard 0 List.length) Unicode.ascii) start (crossed 107 107 97 98)
    Allowed (@perform (.standard 0 List.length) Unicode.ascii) (@Valid _ Unicode.ascii) start
        (crossed 107 107 97 98) ∧
      s.inFlight = [] ∧ s.db.item 0 [107] = some { value := .string [97], deadline := none } ∧
      (@Aof.load Unicode.ascii (.standard 0 List.length) (fun _ => .reading 0)
          (Aof.start [] s.log) Db.empty).2.item 0 [107] =
        some { value := .string [98], deadline := none } ∧
      ¬ @Recovers _ Unicode.ascii s := by
  intro s
  have hstored : s.db.item 0 [107] = some { value := .string [97], deadline := none } := by
    decide +kernel
  have hloaded : (@Aof.load Unicode.ascii (.standard 0 List.length) (fun _ => .reading 0)
      (Aof.start [] s.log) Db.empty).2.item 0 [107] =
        some { value := .string [98], deadline := none } := by
    have hlog : ∀ f ∈ s.log, Aof.Encodable f := by
      intro f hf
      rcases List.mem_pair.mp hf with rfl | rfl
      · exact (received_setFrame 107 97).encodable
      · exact (received_setFrame 107 98).encodable
    rw [@Aof.load_start Unicode.ascii (.standard 0 List.length) s.log hlog]
    decide +kernel
  refine ⟨valid_crossed 107 107 97 98, rfl, hstored, hloaded, fun h => ?_⟩
  obtain ⟨db, hload, hsame⟩ := h (fun _ => .reading 0) 
    (Aof.clocked_of_eq (fun _ => rfl) (show 0 / 10 ^ 9 < 2 ^ 63 by decide))
  rw [hload] at hloaded
  have hslot := hsame 0 0 le_rfl le_rfl [107]
  rw [hloaded, hstored] at hslot
  cases hslot with
  | some h => cases h.value

end System

end InMemoryCache
