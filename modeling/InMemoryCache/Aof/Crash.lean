-- SUMMARY: What a load finds of the log after a crash at any moment.
import InMemoryCache.Aof.Recovery
import InMemoryCache.Aof.Writer

/-!
# Crashes

A crash leaves of the file some prefix that has what was durable in it. What a load replays of
it is the beginning of the log: no record is torn, left out or out of order before the last one
found, and every record that a returned `sync` waited for is among them.
-/

namespace InMemoryCache

open Lib

/-- The bytes, if the message is a record. -/
def AofMsg.record? : AofMsg → Option Bytes
  | .record bytes => some bytes
  | .flush _ => none

namespace Aof

def records (msgs : List AofMsg) : List Bytes := msgs.filterMap AofMsg.record?

theorem content_eq (msgs : List AofMsg) : content msgs = (records msgs).flatten := by
  induction msgs with
  | nil => rfl
  | cons msg msgs ih =>
    rw [content] at ih
    rw [content, List.flatMap_cons, ih]
    cases msg <;> rfl

theorem records_append (msgs more : List AofMsg) :
    records (msgs ++ more) = records msgs ++ records more := List.filterMap_append

namespace Pipeline

-- ---------------------------------------------------------------------------
-- What is durable
-- ---------------------------------------------------------------------------

/-- What is durable is in the file, and no reply promised more. -/
structure Safe (s : Pipeline) : Prop where
  durable : s.durable <+: s.file
  replied : ∀ r ∈ s.replies, r.durable <+: s.durable

theorem safe_start (file : Bytes) : (start file).Safe where
  durable := List.nil_prefix
  replied r hr := by cases hr

theorem safe_receive {s : Pipeline} (h : s.Safe) (taken : Nat) : (s.receive taken).Safe := by
  rw [receive]
  split
  · exact ⟨h.durable.trans (List.prefix_append _ _), h.replied⟩
  · refine ⟨List.prefix_rfl, fun r hr => ?_⟩
    rcases List.mem_append.mp hr with hr | hr
    · exact (h.replied r hr).trans (h.durable.trans (List.prefix_append _ _))
    · cases List.mem_singleton.mp hr
      exact List.prefix_rfl
  · exact h

theorem safe_perform (s : Pipeline) (e : Event) (h : s.Safe) : (s.perform e).Safe := by
  cases e with
  | record frame =>
    rw [perform]
    split
    · exact ⟨h.durable, h.replied⟩
    · exact h
  | call => exact ⟨h.durable, h.replied⟩
  | flush c =>
    rw [perform]
    split
    · split
      · exact ⟨h.durable, h.replied⟩
      · exact h
    · exact h
  | receive taken => exact safe_receive h taken
  | «return» c =>
    rw [perform]
    split
    · split
      · exact ⟨h.durable, h.replied⟩
      · exact h
    · exact h

-- ---------------------------------------------------------------------------
-- The log
-- ---------------------------------------------------------------------------

/-- The log: the frames whose records were sent, and what they have in common. -/
def Logs (p : Frame → Prop) (s : Pipeline) (log : List Frame) : Prop :=
  records s.sent = log.map record ∧ ∀ f ∈ log, p f

theorem Logs.send {p : Frame → Prop} {s : Pipeline} {log : List Frame} (h : s.Logs p log)
    {s' : Pipeline} {msg : AofMsg} {f : Option Frame} (hsent : s'.sent = s.sent ++ [msg])
    (hmsg : msg.record? = f.map record) (hf : ∀ g, f = some g → p g) :
    s'.Logs p (log ++ f.toList) := by
  constructor
  · rw [hsent, records_append, h.1, List.map_append]
    cases f with
    | none => rw [records, List.filterMap_cons_none hmsg]; rfl
    | some g => rw [records, List.filterMap_cons_some hmsg]; rfl
  · intro g hg
    rcases List.mem_append.mp hg with hg | hg
    · exact h.2 g hg
    · exact hf g (Option.mem_toList.mp hg)

theorem logs_perform {p : Frame → Prop} (s : Pipeline) (e : Event) (h : ∃ log, s.Logs p log)
    (he : ∀ f, e = .record f → p f) : ∃ log, (s.perform e).Logs p log := by
  obtain ⟨log, h⟩ := h
  cases e with
  | record frame =>
    rw [perform]
    split
    · refine ⟨_, h.send (f := some frame) rfl rfl fun g hg => ?_⟩
      cases hg
      exact he frame rfl
    · exact ⟨log, h⟩
  | call => exact ⟨log, h⟩
  | flush c =>
    rw [perform]
    split
    · split
      · exact ⟨_, h.send (f := none) rfl rfl fun g hg => by cases hg⟩
      · exact ⟨log, h⟩
    · exact ⟨log, h⟩
  | receive taken =>
    refine ⟨log, ?_⟩
    rw [perform, receive]
    split <;> exact h
  | «return» c =>
    refine ⟨log, ?_⟩
    rw [perform]
    split
    · split <;> exact h
    · exact h

-- ---------------------------------------------------------------------------
-- The crash
-- ---------------------------------------------------------------------------

/-- What a crash may leave of the file. -/
structure Leaves (s : Pipeline) (disk : Bytes) : Prop where
  durable : s.durable <+: disk
  written : disk <+: s.file

/-- Of a log of which the first `k` records are left after a crash, with those of the file's start,
every record is left that a returned `sync` waited for. -/
def Spares (s : Pipeline) (before k : Nat) : Prop :=
  ∀ r ∈ s.returned, ∃ call pos, s.calls[r.call]? = some call ∧ call.sentBefore ≤ pos ∧
    s.sent[pos]? = some (.flush r.call) ∧ before + (records (s.sent.take pos)).length ≤ k

section Crash

variable {old : List Frame} {es : List Event} {disk : Bytes}

/-- A file that started with whole records is, at any moment, the beginning of these and the
log. -/
theorem disk_eq_take {s : Pipeline} {log : List Frame} (h : s.Ordered (old.flatMap record))
    (hlog : records s.sent = log.map record) (hdisk : s.Leaves disk) :
    disk = ((old ++ log).flatMap record).take disk.length := by
  have hcontent : content s.sent = log.flatMap record := by
    rw [content_eq, hlog, List.flatMap_def]
  have hsent : content (s.sent.take s.received) <+: content s.sent := by
    obtain ⟨more, hmore⟩ := List.take_prefix s.received s.sent
    rw [content, content, ← hmore, List.flatMap_append, hmore]
    exact List.prefix_append _ _
  have hprefix : disk <+: (old ++ log).flatMap record := by
    rw [List.flatMap_append, ← hcontent]
    refine (hdisk.written.trans (List.prefix_append _ s.buffer)).trans ?_
    rw [h.written]
    exact (List.prefix_append_right_inj _).mpr hsent
  exact (List.prefix_iff_eq_take.mp hprefix)

/-- A returned `sync` waited for records that no crash takes away. -/
theorem synced_le {s : Pipeline} {log : List Frame} (hlog : records s.sent = log.map record)
    {pos : Nat} {durable : Bytes} (hdurable : durable <+: disk)
    (hcovers : durable = old.flatMap record ++ content (s.sent.take pos)) :
    old.length + (records (s.sent.take pos)).length ≤
      (Decoder.wholly record (old ++ log) disk.length).length := by
  -- the records sent before the position are the first of the log
  have hfirst : records (s.sent.take pos) =
      (log.take (records (s.sent.take pos)).length).map record := by
    have hsplit := records_append (s.sent.take pos) (s.sent.drop pos)
    rw [List.take_append_drop, hlog] at hsplit
    rw [List.map_take, hsplit, List.take_left]
  have hlength : (records (s.sent.take pos)).length ≤ log.length := by
    have := congrArg List.length hfirst
    rw [List.length_map, List.length_take] at this
    omega
  have hcontent : (log.take (records (s.sent.take pos)).length).flatMap record =
      content (s.sent.take pos) := by
    rw [List.flatMap_def, ← hfirst, ← content_eq]
  refine Decoder.le_length_wholly ?_ ?_
  · rw [List.length_append]
    omega
  · rw [List.take_append, List.take_of_length_le (Nat.le_add_right _ _), Nat.add_sub_cancel_left,
      List.flatMap_append, hcontent, ← hcovers]
    exact hdurable.length_le

variable [Unicode] {cfg : Config}

/-- After a crash a load replays the beginning of the log, with all records whose `sync` has
returned. -/
theorem crash_recovery {s : Pipeline} (hs : s = runAll perform (start (old.flatMap record)) es)
    (hold : ∀ f ∈ old, Received f) (hes : ∀ f, .record f ∈ es → Received f)
    (hdisk : s.Leaves disk) {ctx : Nat → Ctx}
    (hfits : ∀ i f, f ∈ old ∨ .record f ∈ es → Fits (ctx i).clock.now f) (db : Db cfg) :
    ∃ log k, records s.sent = log.map record ∧ (∀ f ∈ log, .record f ∈ es) ∧
      load ctx disk db = (.ok (commands ctx ((old ++ log).take k)).length,
        applyAll db (commands ctx ((old ++ log).take k))) ∧ s.Spares old.length k := by
  have hordered := runAll_invariant ordered_perform (ordered_start (old.flatMap record)) es
  have hsafe := runAll_invariant safe_perform (safe_start (old.flatMap record)) es
  obtain ⟨log, hlog, hmem⟩ : ∃ log, (runAll perform (start (old.flatMap record)) es).Logs
      (fun f => .record f ∈ es) log := by
    have hallowed : Allowed perform (fun _ e => e ∈ es) (start (old.flatMap record)) es :=
      allowed_of_forall fun _ he => he
    refine hallowed.invariant (fun s e h he => logs_perform s e h fun f hf => ?_) ⟨[], rfl, ?_⟩
    · exact hf ▸ he
    · exact List.forall_mem_nil _
  rw [← hs] at hordered hsafe hlog
  have hreceived : ∀ f ∈ old ++ log, Received f := by
    intro f hf
    rcases List.mem_append.mp hf with hf | hf
    · exact hold f hf
    · exact hes f (hmem f hf)
  have hload := load_torn ctx db (old ++ log) disk.length hreceived fun i f hf =>
    hfits i f ((List.mem_append.mp hf).imp_right (hmem f))
  rw [← disk_eq_take hordered hlog hdisk, Decoder.wholly_eq_take] at hload
  refine ⟨log, _, hlog, hmem, hload, fun r hr => ?_⟩
  obtain ⟨call, pos, hcall, hbefore, hpos, hcovers⟩ := hordered.replied r (hordered.answered r hr)
  have hdurable := (hsafe.replied r (hordered.answered r hr)).trans hdisk.durable
  exact ⟨call, pos, hcall, hbefore, hpos, synced_le hlog hdurable hcovers⟩

end Crash

/-- A record that was synced, and a crash with another one in the buffer. -/
theorem crash_recovery_synced :
    let set (v : UInt8) : Frame := .array [.bulk [83, 69, 84], .bulk [107], .bulk [v]]
    let es : List Event :=
      [.record (set 118), .call, .flush 0, .receive 0, .receive 0, .return 0, .record (set 119),
        .receive 0]
    let s := runAll perform (start []) es
    let ctx : Nat → Ctx := fun _ => .reading 0
    ∃ log k, records s.sent = log.map record ∧ (∀ f ∈ log, .record f ∈ es) ∧
      @load Unicode.ascii (.standard 0 List.length) ctx (record (set 118)) Db.empty =
        (.ok (@commands Unicode.ascii ctx (([] ++ log).take k)).length,
          applyAll Db.empty (@commands Unicode.ascii ctx (([] ++ log).take k))) ∧ s.Spares 0 k := by
  intro set es s ctx
  have hmem : ∀ f, .record f ∈ es → f = set 118 ∨ f = set 119 := by
    intro f hf
    simpa [es] using hf
  have hset : ∀ v ∈ [118, 119], @Command.fromFrame Unicode.ascii 0 (set v) =
      .ok (.set { key := [107], value := [v], expiresAt := none }) := by
    decide +kernel
  refine @crash_recovery [] es (record (set 118)) Unicode.ascii (.standard 0 List.length) s rfl
    (List.forall_mem_nil _) (fun f hf => ?_) ⟨?_, ?_⟩ ctx (fun i f hf => ?_) Db.empty
  · rcases hmem f hf with rfl | rfl
    · exact received_of_clean ⟨trivial, trivial, trivial, trivial⟩ (by decide +kernel)
    · exact received_of_clean ⟨trivial, trivial, trivial, trivial⟩ (by decide +kernel)
  · exact (show s.durable = record (set 118) by decide +kernel) ▸ List.prefix_rfl
  · exact (show s.file = record (set 118) by decide +kernel) ▸ List.prefix_rfl
  · rcases hmem f (hf.resolve_left List.not_mem_nil) with rfl | rfl
    · exact @fits_of_ok Unicode.ascii _ _ _ (hset 118 (by simp)) (by simp)
    · exact @fits_of_ok Unicode.ascii _ _ _ (hset 119 (by simp)) (by simp)

end Pipeline

end Aof

end InMemoryCache
