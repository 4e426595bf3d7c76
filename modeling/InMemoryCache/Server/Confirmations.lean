-- SUMMARY: The counts that subscription confirmations carry, and when they are exact.
import InMemoryCache.Lib.Domain
import InMemoryCache.Server.Subscriber

/-!
# Confirmations

The loop over the initial `SUBSCRIBE` numbers its confirmations by position, the loop over
a later one by the size of the `StreamMap`. The two agree as long as the initial list has
named no channel twice.
-/

namespace InMemoryCache

open Lib

namespace Subscriber

/-- The number a confirmation carries. -/
def Entry.count? : Entry → Option Int64
  | .sent (.array [.bulk kind, .bulk _, .integer n]) =>
    if kind = asBytes "subscribe" then some n else none
  | _ => none

/-- A confirmation sent in the step carries the number of channels that are subscribed. -/
def Exact [Unicode] (s : Subscriber) (e : Event) : Prop :=
  ∀ entry ∈ (s.step e).history.drop s.history.length, ∀ n, entry.count? = some n →
    n = Int64.ofNat s.subscriptions.dom.card

/-- How far the loop over the initial list has come: it has numbered the channels done. -/
def Tracks (channels : List String) (s : Subscriber) : Prop :=
  match s.phase with
  | .initial i rest => ∃ done, channels = done ++ rest ∧ i = done.length ∧
      s.subscriptions.dom = done.toFinset
  | .initialConfirm i ch rest => ∃ done, channels = done ++ ch :: rest ∧ i = done.length ∧
      s.subscriptions.dom = insert ch done.toFinset
  | _ => True

theorem count?_confirmation (ch : String) (n : Nat) :
    (Entry.sent (confirmation ch n)).count? = some (Int64.ofNat n) := by
  rw [confirmation, Frame.ofUsize, Entry.count?, if_pos rfl]

theorem count?_answer (served : Bool) :
    (Entry.sent (if served then pong else onlySubscribe)).count? = none := by
  cases served <;> rfl

theorem ofNat_succ_ne (n : Nat) : Int64.ofNat (n + 1) ≠ Int64.ofNat n := by
  intro h
  rw [Int64.ofNat_add] at h
  have hone := (Int64.add_right_inj (Int64.ofNat n)).mp (h.trans (Int64.add_zero _).symm)
  exact absurd hone (by decide)

section Steps

variable {channels : List String} {s : Subscriber}

theorem tracks_of_phase (h : s.phase.isInitial = false) : Tracks channels s := by
  rw [Tracks]
  split
  · rename_i hphase
    rw [hphase] at h
    cases h
  · rename_i hphase
    rw [hphase] at h
    cases h
  · trivial

/-! ## The channels done -/

theorem isInitial_request [Unicode] (now : Instant) (frame : Option Frame) :
    (request now frame).isInitial = false := by
  cases frame with
  | none => rfl
  | some frame =>
    rw [request]
    split <;> rfl

theorem tracks_advance (h : Tracks channels s) : Tracks channels s.advance := by
  cases hphase : s.phase with
  | initial i rest =>
    rw [Tracks, hphase] at h
    obtain ⟨done, hchannels, hi, hdom⟩ := h
    cases rest with
    | nil =>
      rw [advance, hphase]
      exact tracks_of_phase rfl
    | cons ch rest =>
      rw [advance, hphase]
      exact ⟨done, hchannels, hi, by rw [Table.dom_insert, hdom]⟩
  | initialConfirm i ch rest =>
    rw [Tracks, hphase] at h
    obtain ⟨done, hchannels, hi, hdom⟩ := h
    rw [advance, hphase]
    refine ⟨done ++ [ch], ?_, ?_, ?_⟩
    · rw [hchannels, List.append_assoc]
      rfl
    · rw [hi, List.length_append]
      rfl
    · rw [List.toFinset_append, Finset.union_comm]
      exact hdom
  | later rest =>
    cases rest with
    | nil =>
      rw [advance, hphase]
      exact tracks_of_phase rfl
    | cons ch rest =>
      rw [advance, hphase]
      dsimp only
      split <;> exact tracks_of_phase rfl
  | listening | closed =>
    rw [advance, hphase]
    exact h
  | pushing | laterConfirm | answering =>
    rw [advance, hphase]
    exact tracks_of_phase rfl

theorem tracks_step [Unicode] (h : Tracks channels s) (e : Event) : Tracks channels (s.step e) := by
  cases e with
  | publish ch msg =>
    simp only [Tracks, step, Table.dom_overwrite_map]
    exact h
  | take ch =>
    rw [step]
    split
    · exact tracks_of_phase rfl
    · exact h
  | request now frame =>
    rw [step]
    split
    · exact tracks_of_phase (isInitial_request now frame)
    · exact h
  | advance => exact tracks_advance h

/-! ## The counts sent -/

theorem exact_of_history [Unicode] {e : Event} (h : (s.step e).history = s.history) :
    s.Exact e := by
  intro entry hentry
  rw [h, List.drop_length] at hentry
  cases hentry

/-- What a step that appends one entry says depends on that entry. -/
theorem exact_of_append [Unicode] {e : Event} (entry : Entry)
    (h : (s.step e).history = s.history ++ [entry])
    (hcount : ∀ n, entry.count? = some n → n = Int64.ofNat s.subscriptions.dom.card) :
    s.Exact e := by
  intro entry' hentry
  rw [h, List.drop_left, List.mem_singleton] at hentry
  exact hentry ▸ hcount

/-- The confirmation `count` is exact if that many channels are subscribed. -/
theorem exact_of_confirmation [Unicode] {e : Event} (ch : String) (count : Nat)
    (h : (s.step e).history = s.history ++ [.sent (confirmation ch count)])
    (hcount : s.subscriptions.dom.card = count) : s.Exact e := by
  refine exact_of_append _ h fun n hn => ?_
  rw [count?_confirmation] at hn
  rw [hcount, Option.some.inj hn]

theorem exact_advance [Unicode] (hnodup : channels.Nodup) (h : Tracks channels s) :
    s.Exact .advance := by
  cases hphase : s.phase with
  | initial i rest => cases rest <;> exact exact_of_history (by rw [step, advance, hphase])
  | initialConfirm i ch rest =>
    rw [Tracks, hphase] at h
    obtain ⟨done, rfl, rfl, hdom⟩ := h
    -- the channel is none of those done, so it is one more
    have hdone : done.Nodup := hnodup.of_append_left
    have hnew : ch ∉ done := fun hmem =>
      (List.nodup_append.mp hnodup).2.2 ch hmem ch List.mem_cons_self rfl
    refine exact_of_confirmation ch (done.length + 1) ?_ ?_
    · rw [step, advance, hphase]
      rfl
    · rw [hdom, card_insert_toFinset hdone, if_neg hnew]
  | later rest =>
    cases rest with
    | nil => exact exact_of_history (by rw [step, advance, hphase])
    | cons ch rest =>
      refine exact_of_history ?_
      rw [step, advance, hphase]
      dsimp only
      split <;> rfl
  | laterConfirm ch rest =>
    refine exact_of_confirmation ch _ ?_ (Table.card_dom s.subscriptions)
    rw [step, advance, hphase]
    rfl
  | pushing ch msg =>
    refine exact_of_append (.sent (pushFrame ch msg)) ?_ fun n hn => by cases hn
    rw [step, advance, hphase]
    rfl
  | answering served =>
    refine exact_of_append (.sent (if served then pong else onlySubscribe)) ?_ fun n hn => ?_
    · rw [step, advance, hphase]
      rfl
    · rw [count?_answer] at hn
      cases hn
  | listening | closed => exact exact_of_history (by rw [step, advance, hphase])

theorem exact_step [Unicode] (hnodup : channels.Nodup) (h : Tracks channels s) (e : Event) :
    s.Exact e := by
  cases e with
  | publish ch msg =>
    exact exact_of_append (.published ch msg) rfl fun n hn => by cases hn
  | take ch =>
    refine exact_of_history ?_
    rw [step]
    split <;> rfl
  | request now frame =>
    refine exact_of_history ?_
    rw [step]
    split <;> rfl
  | advance => exact exact_advance hnodup h

end Steps

-- ---------------------------------------------------------------------------
-- Runs
-- ---------------------------------------------------------------------------

section Runs

variable [Unicode] {channels : List String}

theorem tracks_run (channels : List String) (es : List Event) :
    Tracks channels (runAll step (start channels) es) := by
  have hstart : Tracks channels (start channels) := ⟨[], rfl, rfl, rfl⟩
  exact @runAll_invariant _ _ step _ (Tracks channels) (fun _ e h => tracks_step h e) hstart es

/-- Two steps into the loop's next turn, an exact confirmation shows that the channel is none
of those done. -/
theorem nodup_concat_of_exact {s : Subscriber} {i : Nat} {ch : String} {done rest : List String}
    (hphase : s.phase = .initial i (ch :: rest)) (hi : i = done.length)
    (hdom : s.subscriptions.dom = done.toFinset) (hnodup : done.Nodup)
    (hexact : (s.step .advance).Exact .advance) : (done ++ [ch]).Nodup := by
  have hsubscribed : s.step .advance = { s with
      subscriptions := s.subscriptions.insert ch [],
      phase := .initialConfirm i ch rest } := by
    rw [step, advance, hphase]
  have hsent : ((s.step .advance).step .advance).history =
      (s.step .advance).history ++ [.sent (confirmation ch (i + 1))] := by
    rw [hsubscribed]
    rfl
  have hcount := hexact (.sent (confirmation ch (i + 1)))
    (by rw [hsent, List.drop_left]; exact List.mem_cons_self) _ (count?_confirmation ch (i + 1))
  rw [hsubscribed, Table.dom_insert, hdom, card_insert_toFinset hnodup, hi] at hcount
  rw [← List.concat_eq_append, List.nodup_concat]
  refine ⟨fun hmem => ?_, hnodup⟩
  rw [if_pos hmem] at hcount
  exact ofNat_succ_ne done.length hcount

/-- Exact confirmations show, channel after channel, that the initial list repeats none. -/
theorem nodup_of_exact (h : ∀ es e, (runAll step (start channels) es).Exact e)
    (done rest : List String) (hchannels : channels = done ++ rest) :
    done.Nodup ∧ ∃ es, (runAll step (start channels) es).phase = .initial done.length rest ∧
      (runAll step (start channels) es).subscriptions.dom = done.toFinset := by
  induction done using List.reverseRecOn generalizing rest with
  | nil => exact ⟨List.nodup_nil, [], by rw [hchannels]; rfl, rfl⟩
  | append_singleton done ch ih =>
    rw [List.append_assoc] at hchannels
    obtain ⟨hnodup, es, hphase, hdom⟩ := ih (ch :: rest) hchannels
    have hexact := h (es ++ [.advance]) .advance
    rw [runAll_append] at hexact
    refine ⟨nodup_concat_of_exact hphase rfl hdom hnodup hexact, es ++ [.advance, .advance], ?_⟩
    rw [runAll_append]
    generalize runAll step (start channels) es = s at hphase hdom
    have htwice : runAll step s [.advance, .advance] =
        ({ s with
          subscriptions := s.subscriptions.insert ch [],
          phase := .initialConfirm done.length ch rest } : Subscriber).advance := by
      show (s.advance).advance = _
      rw [advance.eq_def s, hphase]
    rw [htwice, List.length_append]
    refine ⟨rfl, ?_⟩
    show (s.subscriptions.insert ch []).dom = _
    rw [Table.dom_insert, hdom, List.toFinset_append, Finset.union_comm]
    rfl

/-- Every confirmation of every run is exact if and only if the initial list names no channel
twice. -/
theorem confirmations_exact_iff (channels : List String) :
    (∀ es e, (runAll step (start channels) es).Exact e) ↔ channels.Nodup := by
  constructor
  · intro h
    exact (nodup_of_exact h channels [] (List.append_nil _).symm).1
  · intro hnodup es e
    exact exact_step hnodup (tracks_run channels es) e

end Runs

/-- `SUBSCRIBE c c`: the second confirmation counts two channels, and there is one. -/
theorem confirmation_counts_repeated :
    let s := runAll (@step Unicode.ascii) (start ["c", "c"]) [.advance, .advance, .advance]
    s.subscriptions.dom = {"c"} ∧
      (@step Unicode.ascii s .advance).history =
        s.history ++ [.sent (.array [.bulk (asBytes "subscribe"), .bulk (asBytes "c"),
          .integer 2])] ∧
      ¬ @Exact Unicode.ascii s .advance := by
  intro s
  have hdom : s.subscriptions.dom = {"c"} := by decide +kernel
  have hhistory : (@step Unicode.ascii s .advance).history =
      s.history ++ [.sent (confirmation "c" 2)] := by with_unfolding_all rfl
  refine ⟨hdom, hhistory, fun h => ?_⟩
  have hcount := h (.sent (confirmation "c" 2))
    (by rw [hhistory, List.drop_left]; exact List.mem_cons_self) _ (count?_confirmation "c" 2)
  rw [hdom] at hcount
  exact absurd hcount (by decide)

end Subscriber

end InMemoryCache
