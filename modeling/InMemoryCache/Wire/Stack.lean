-- SUMMARY: The checker and the parser on a call stack that holds so many of their calls.
import InMemoryCache.Wire.Connection

/-!
# Bounded stacks

`Frame::check` and `Frame::parse` call themselves for the elements of an array, and a thread's
stack holds a number of such calls inside one another. A call beyond them overflows the stack,
which ends the process. Up to there the bound changes nothing (`checkOn_cases`,
`parseOn_cases`).
-/

namespace InMemoryCache

open Lib Reader

/-- Why a call on a bounded stack returns no value: it returns an error, or never, because
the stack overflowed and the process was aborted. -/
inductive Fault where
  | message (e : String)
  | overflow
  deriving DecidableEq, Repr

/-- How many calls of `check`, and of `parse`, a thread's stack holds inside one another. -/
structure Stack where
  check : Nat
  parse : Nat

namespace Frame

/-- A reader that calls no reader for frames. -/
def onStack (g : Reader UInt8 String α) : Reader UInt8 Fault α := mapError .message g

/-- `Frame::check` with room for so many calls of it. A call that is not for an array makes no
further one. -/
def checkOn : Nat → Reader UInt8 Fault Unit
  | 0 => Reader.reject .overflow
  | calls + 1 => do
    let b ← Reader.peek
    if b = byte '*' then do
      let _ ← Reader.next
      let len ← onStack getDecimal
      if len < 0 then Reader.reject (.message "negative array length")
      else Reader.times (checkOn calls) len.toInt.toNat
    else onStack check

/-- `Frame::parse` with room for so many calls of it. -/
def parseOn : Nat → Reader UInt8 Fault Frame
  | 0 => Reader.reject .overflow
  | calls + 1 => do
    let b ← Reader.peek
    if b = byte '*' then do
      let _ ← Reader.next
      let len ← onStack getDecimal
      let n ← onStack (tryUsize len)
      let out ← Reader.collect (parseOn calls) n
      pure (.array out)
    else onStack parse

/-! ## One call -/

theorem onStack_eq_ok {g : Reader UInt8 String α} {s : Bytes} {x : α × Bytes} :
    onStack g s = .ok x ↔ g s = .ok x := mapError_eq_ok

theorem times_onStack {g : Reader UInt8 String α} {n : Nat} {s : Bytes} {x : Unit × Bytes} :
    times (onStack g) n s = .ok x ↔ times g n s = .ok x := by
  rw [onStack, ← mapError_times]
  exact mapError_eq_ok

theorem collect_onStack {g : Reader UInt8 String α} {n : Nat} {s : Bytes} {x : List α × Bytes} :
    collect (onStack g) n s = .ok x ↔ collect g n s = .ok x := by
  rw [onStack, ← mapError_collect]
  exact mapError_eq_ok

theorem checkOn_nil (calls : Nat) : checkOn (calls + 1) [] = onStack check [] := rfl

theorem parseOn_nil (calls : Nat) : parseOn (calls + 1) [] = onStack parse [] := rfl

theorem checkOn_of_ne {b : UInt8} (hb : b ≠ byte '*') (calls : Nat) (s : Bytes) :
    checkOn (calls + 1) (b :: s) = onStack check (b :: s) := by
  have hpeek : (Reader.peek : Reader UInt8 Fault UInt8) (b :: s) = .ok (b, b :: s) := rfl
  rw [checkOn, bind_ok hpeek, if_neg hb]

theorem parseOn_of_ne {b : UInt8} (hb : b ≠ byte '*') (calls : Nat) (s : Bytes) :
    parseOn (calls + 1) (b :: s) = onStack parse (b :: s) := by
  have hpeek : (Reader.peek : Reader UInt8 Fault UInt8) (b :: s) = .ok (b, b :: s) := rfl
  rw [parseOn, bind_ok hpeek, if_neg hb]

theorem checkOn_star (calls : Nat) (s : Bytes) :
    checkOn (calls + 1) (byte '*' :: s) = (do
      let len ← onStack getDecimal
      if len < 0 then Reader.reject (.message "negative array length")
      else Reader.times (checkOn calls) len.toInt.toNat : Reader UInt8 Fault Unit) s := rfl

theorem parseOn_star (calls : Nat) (s : Bytes) :
    parseOn (calls + 1) (byte '*' :: s) = (do
      let len ← onStack getDecimal
      let n ← onStack (tryUsize len)
      let out ← Reader.collect (parseOn calls) n
      pure (.array out) : Reader UInt8 Fault Frame) s := rfl

theorem onStack_check_star (s : Bytes) :
    onStack check (byte '*' :: s) = (do
      let len ← onStack getDecimal
      if len < 0 then Reader.reject (.message "negative array length")
      else Reader.times (onStack check) len.toInt.toNat : Reader UInt8 Fault Unit) s := by
  rw [onStack, mapError, check_star]
  change mapError Fault.message _ s = _
  rw [mapError_bind]
  refine congrFun (congrArg (onStack getDecimal >>= ·) (funext fun len => ?_)) s
  split
  · rfl
  · exact mapError_times check _

theorem onStack_parse_star (s : Bytes) :
    onStack parse (byte '*' :: s) = (do
      let len ← onStack getDecimal
      let n ← onStack (tryUsize len)
      let out ← Reader.collect (onStack parse) n
      pure (.array out) : Reader UInt8 Fault Frame) s := by
  rw [onStack, mapError, parse_star]
  change mapError Fault.message _ s = _
  rw [mapError_bind]
  refine congrFun (congrArg (onStack getDecimal >>= ·) (funext fun len => ?_)) s
  rw [mapError_bind]
  refine congrArg (onStack (tryUsize len) >>= ·) (funext fun n => ?_)
  rw [mapError_bind, mapError_collect]
  rfl

/-! ## What the bound changes -/

/-- The checker overflows the stack, or it answers as it does without a bound. By induction on
the calls that there is room for. -/
theorem checkOn_cases (calls : Nat) : FaultsOr .overflow (checkOn calls) (onStack check) := by
  induction calls with
  | zero => exact fun s => .inl rfl
  | succ calls ih =>
    intro s
    cases s with
    | nil => exact .inr (checkOn_nil calls)
    | cons b s =>
      by_cases hb : b = byte '*'
      · subst hb
        rw [checkOn_star, onStack_check_star]
        refine faultsOr_bind (fun len => ?_) s
        split
        · exact faultsOr_refl
        · exact ih.times _
      · exact .inr (checkOn_of_ne hb calls s)

/-- So does the parser. -/
theorem parseOn_cases (calls : Nat) : FaultsOr .overflow (parseOn calls) (onStack parse) := by
  induction calls with
  | zero => exact fun s => .inl rfl
  | succ calls ih =>
    intro s
    cases s with
    | nil => exact .inr (parseOn_nil calls)
    | cons b s =>
      by_cases hb : b = byte '*'
      · subst hb
        rw [parseOn_star, onStack_parse_star]
        refine faultsOr_bind (fun len => ?_) s
        refine faultsOr_bind fun n => ?_
        exact (ih.collect n).bind fun out => faultsOr_refl
      · exact .inr (parseOn_of_ne hb calls s)

/-- What is checked on a bounded stack is checked. -/
theorem check_of_checkOn {calls : Nat} {s rest : Bytes} (h : checkOn calls s = .ok ((), rest)) :
    check s = .ok ((), rest) :=
  onStack_eq_ok.mp ((checkOn_cases calls).eq_ok h)

theorem parse_of_parseOn {calls : Nat} {s rest : Bytes} {f : Frame}
    (h : parseOn calls s = .ok (f, rest)) : parse s = .ok (f, rest) :=
  onStack_eq_ok.mp ((parseOn_cases calls).eq_ok h)

theorem mirrors_parseOn (calls : Nat) : Mirrors (onStack check) (parseOn calls) :=
  mirrors_check_parse.mapError.faultsOr (parseOn_cases calls)

theorem reads_parseOn (calls : Nat) : Reads 1 (parseOn calls) := by
  induction calls with
  | zero => exact reads_reject 1 _
  | succ calls ih =>
    refine reads_peek_bind fun b => ?_
    split
    · refine reads_next.bind_mono
        (fun _ => reads_getDecimal.mapError.bind (n := 0) fun len => ?_) (by omega)
      refine (reads_tryUsize len).mapError.bind (n := 0) fun n => ?_
      exact (reads_collect (ih.mono (by omega)) n).bind fun _ => reads_pure _
    · exact reads_parse.mapError

end Frame

/-- `parse_frame` on a bounded stack. -/
def Connection.parseFrameOn (stack : Stack) (buffer : Bytes) :
    Except (ReadError Fault) (Option (Frame × Bytes)) :=
  match Frame.checkOn stack.check buffer with
  | .ok (_, rest) =>
    let len := buffer.length - rest.length
    match Frame.parseOn stack.parse buffer with
    | .ok (frame, _) => .ok (some (frame, buffer.drop len))
    | .error e => .error e
  | .error .incomplete => .ok none
  | .error e => .error e

/-- It hands out no frame but the one it hands out without a bound. -/
theorem Connection.parseFrame_of_parseFrameOn {stack : Stack} {buffer rest : Bytes} {frame : Frame}
    (h : parseFrameOn stack buffer = .ok (some (frame, rest))) :
    parseFrame buffer = .ok (some (frame, rest)) := by
  rw [parseFrameOn] at h
  cases hcheck : Frame.checkOn stack.check buffer with
  | error e => cases e <;> simp [hcheck] at h
  | ok v =>
    obtain ⟨⟨⟩, r⟩ := v
    rw [hcheck] at h
    dsimp only at h
    cases hparse : Frame.parseOn stack.parse buffer with
    | error e =>
      rw [hparse] at h
      cases h
    | ok v =>
      obtain ⟨g, t⟩ := v
      rw [hparse] at h
      cases h
      rw [parseFrame, Frame.check_of_checkOn hcheck]
      dsimp only
      rw [Frame.parse_of_parseOn hparse]

end InMemoryCache
