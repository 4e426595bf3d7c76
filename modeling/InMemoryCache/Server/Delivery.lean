-- SUMMARY: A subscriber that falls behind is pushed nothing twice and nothing out of order.
import InMemoryCache.Server.Subscriber

/-!
# Delivery

`Subscriber` says what reaches a subscriber that keeps up. Whatever it falls behind by, what it
was pushed of a channel, and what is on its way to it, is what was published there in the same
order, with messages left out (`held_sublist`): a full receiver and a receiver that is replaced
lose messages, and no step repeats one or moves it past another.
-/

namespace InMemoryCache

open Lib
open scoped List

namespace Subscriber

/-- What an event publishes on a channel. -/
def Event.publishes (ch : String) : Event → List Bytes
  | .publish channel msg => if channel = ch then [msg] else []
  | _ => []

variable {s : Subscriber}

theorem held_initial {i : Nat} {ch : String} {channels : List String}
    (hphase : s.phase = .initial i (ch :: channels)) (c : String) :
    s.advance.held c <+ s.held c := by
  rw [advance, hphase, held, held, pending, pending, hphase, Table.get?_insert]
  refine List.Sublist.append (List.Sublist.refl _) (List.Sublist.append (List.Sublist.refl _) ?_)
  split
  · exact List.nil_sublist _
  · exact List.Sublist.refl _

theorem held_later {ch : String} {channels : List String}
    (hphase : s.phase = .later (ch :: channels)) (c : String) : s.advance.held c = s.held c := by
  rw [advance, hphase]
  dsimp only
  split
  · refine (keeps_phase fun _ => ?_).held c
    rw [hphase]
    rfl
  · rename_i hcontains
    exact (keeps_subscribe hphase (Option.not_isSome_iff_eq_none.mp hcontains)).held c

/-- Going on, a subscriber gains no message. -/
theorem held_advance (s : Subscriber) (ch : String) : s.advance.held ch <+ s.held ch := by
  by_cases hinitial : ∃ i c channels, s.phase = .initial i (c :: channels)
  · obtain ⟨i, c, channels, hphase⟩ := hinitial
    exact held_initial hphase ch
  · suffices s.advance.held ch = s.held ch from this ▸ List.Sublist.refl _
    cases hphase : s.phase with
    | initial i channels =>
      cases channels with
      | nil =>
        rw [advance, hphase]
        refine (keeps_phase fun _ => ?_).held ch
        rw [hphase]
        rfl
      | cons c channels => exact absurd ⟨i, c, channels, hphase⟩ hinitial
    | listening | closed =>
      rw [advance, hphase]
    | pushing c msg =>
      rw [advance, hphase]
      refine (keeps_write fun c' => ?_).held ch
      rw [hphase, pushed?_pushFrame, Phase.hand]
      split <;> rfl
    | later channels =>
      cases channels with
      | nil =>
        rw [advance, hphase]
        refine (keeps_phase fun _ => ?_).held ch
        rw [hphase]
        rfl
      | cons c channels => exact held_later hphase ch
    | initialConfirm | laterConfirm =>
      rw [advance, hphase]
      refine (keeps_write fun _ => ?_).held ch
      rw [hphase]
      rfl
    | answering served =>
      rw [advance, hphase]
      refine (keeps_write fun _ => ?_).held ch
      rw [hphase, pushed?_answer]
      rfl

theorem hand_request [Unicode] (now : Instant) (frame : Option Frame) (ch : String) :
    (request now frame).hand ch = [] := by
  cases frame with
  | none => rfl
  | some frame =>
    rw [request]
    split <;> rfl

theorem published_advance (s : Subscriber) (ch : String) :
    published ch s.advance.history = published ch s.history := by
  have hwrite : ∀ (frame : Frame) (phase : Phase),
      published ch (s.write frame phase).history = published ch s.history := by
    intro frame phase
    rw [write, published_concat]
    exact List.append_nil _
  rw [advance]
  split
  · rfl
  · rfl
  · exact hwrite _ _
  · exact hwrite _ _
  · rfl
  · split <;> rfl
  · exact hwrite _ _
  · exact hwrite _ _
  · rfl
  · rfl

section Steps

variable [Unicode]

theorem held_publish_sublist (s : Subscriber) (ch c : String) (msg : Bytes) :
    (s.step (.publish ch msg)).held c <+ s.held c ++ if ch = c then [msg] else [] := by
  have hpushed : pushed c (s.history ++ [.published ch msg]) = pushed c s.history := by
    rw [pushed_concat]
    exact List.append_nil _
  rw [step, held, held, pending, pending, hpushed, Table.get?_overwrite, List.append_assoc,
    List.append_assoc]
  refine List.Sublist.append (List.Sublist.refl _) (List.Sublist.append (List.Sublist.refl _) ?_)
  split
  · rename_i hc
    rw [if_pos hc.symm, ← hc]
    cases s.subscriptions.get? c with
    | none => exact List.nil_sublist _
    | some queue =>
      rw [Option.map_some, Option.getD_some, Option.getD_some, receive]
      exact List.drop_sublist _ _
  · rename_i hc
    rw [if_neg (Ne.symm hc), List.append_nil]

/-- The step lemma: what a channel holds grows by what is published on it, if at all. -/
theorem held_step (s : Subscriber) (e : Event) (ch : String) :
    (s.step e).held ch <+ s.held ch ++ e.publishes ch ∧
      published ch (s.step e).history = published ch s.history ++ e.publishes ch := by
  cases e with
  | publish c msg =>
    refine ⟨held_publish_sublist s c ch msg, ?_⟩
    rw [step, published_concat, published?_toList]
    rfl
  | take c =>
    simp only [step, Event.publishes, List.append_nil]
    split
    · rename_i hphase hqueue
      rw [(keeps_take hphase hqueue).held ch]
      exact ⟨List.Sublist.refl _, rfl⟩
    · exact ⟨List.Sublist.refl _, rfl⟩
  | request now frame =>
    simp only [step, Event.publishes, List.append_nil]
    split
    · rename_i hphase
      rw [(keeps_phase fun c => by rw [hand_request, hphase]; rfl).held ch]
      exact ⟨List.Sublist.refl _, rfl⟩
    · exact ⟨List.Sublist.refl _, rfl⟩
  | advance =>
    simp only [Event.publishes, List.append_nil]
    exact ⟨held_advance s ch, published_advance s ch⟩

/-- The run lemma. -/
theorem held_sublist (channels : List String) (es : List Event) (ch : String) :
    (runAll step (start channels) es).held ch <+
      published ch (runAll step (start channels) es).history := by
  refine runAll_invariant (I := fun s : Subscriber => s.held ch <+ published ch s.history)
    (fun s e hs => ?_) (List.Sublist.refl _) es
  obtain ⟨hheld, hpublished⟩ := held_step s e ch
  rw [hpublished]
  exact hheld.trans (hs.append (List.Sublist.refl _))

end Steps

end Subscriber

end InMemoryCache
