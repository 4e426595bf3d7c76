-- SUMMARY: What the operations mean on a key's value and deadline, and that the code does that.
import InMemoryCache.Lib.Lease
import InMemoryCache.Store.Run

/-!
# The meaning of an operation

`KeyOp.onItem` says what each operation is for, on the value and deadline a client can
see under the key; it never looks at the clock to tell live from expired.
`onCell_refines` connects it to the code: an operation on a cell answers what its
meaning answers on the visible item, and leaves visible what its meaning leaves.
-/

namespace InMemoryCache

open Lib Leased

/-- A value with its deadline. -/
abbrev Item := Leased DataType Instant

def CacheEntry.item (entry : CacheEntry) : Item where
  value := entry.data
  deadline := entry.expiresAt

/-! ## Meanings -/

namespace Item

/-- Read a value; `absent` is the result without one. -/
def inspect (absent : ρ) (read : DataType → Option (ρ × Bool)) :
    Option Item → Except String ρ × Option Item
  | none => (.ok absent, none)
  | some it =>
    match read it.value with
    | some (r, _) => (.ok r, some it)
    | none => (.error wrongTypeErr, some it)

/-- Edit a value, or the empty one. -/
def create (empty : DataType) (edit : DataType → Option (Edit Nat)) (s : Option Item) :
    Except String Nat × Option Item :=
  let it := s.getD { value := empty, deadline := none }
  match edit it.value with
  | some e => (.ok e.result, some { it with value := e.data })
  | none => (.error wrongTypeErr, some it)

/-- Edit a value, and drop it once it is empty. -/
def shrink (absent : ρ) (edit : DataType → Option (Edit ρ)) :
    Option Item → Except String ρ × Option Item
  | none => (.ok absent, none)
  | some it =>
    match edit it.value with
    | some e => (.ok e.result, if e.data.isEmpty then none else some { it with value := e.data })
    | none => (.error wrongTypeErr, some it)

def readString : DataType → Option (Option Bytes × Bool)
  | .string b => some (some b, true)
  | _ => none

/-- The time left, in some unit: -2 without an item, -1 without a deadline. -/
def timeLeft (unit : Duration → Nat) (now : Instant) (s : Option Item) : Int64 × Option Item :=
  match s with
  | none => (-2, none)
  | some it =>
    match it.deadline with
    | some d => (Int64.ofNat (unit (d - now)), some it)
    | none => (-1, some it)

/-- Move the deadline; no answer if it overflows. -/
def expireIn (duration : Duration) (now : Instant) : Option Item → Option Bool × Option Item
  | none => (some false, none)
  | some it =>
    match Instant.add now duration with
    | some d => (some true, some { it with deadline := some d })
    | none => (none, some it)

end Item

open Item in
/-- What an operation at time `now` does to the item under its key. -/
def KeyOp.onItem (now : Instant) (s : Option Item) : KeyOp → Answer × Option Item
  | .get => answer .value (inspect none readString s)
  | .set value expiresAt => (.done, some { value := .string value, deadline := expiresAt })
  | .lpush elements => answer .count (create (.list []) (editLpush elements) s)
  | .rpush elements => answer .count (create (.list []) (editRpush elements) s)
  | .lpop => answer .value (shrink none editLpop s)
  | .rpop => answer .value (shrink none editRpop s)
  | .lrange start stop => answer .items (inspect [] (Cell.readRange start.toInt stop.toInt) s)
  | .hset fields => answer .count (create (.hash ∅) (editHset fields) s)
  | .hget field => answer .value (inspect none (Cell.readField field) s)
  | .hdel fields => answer .count (shrink 0 (editHdel fields) s)
  | .hgetall => answer .pairs (inspect [] Cell.readPairs s)
  | .sadd members => answer .count (create (.set ∅) (editSadd members) s)
  | .smembers => answer .members (inspect [] Cell.readMembers s)
  | .srem members => answer .count (shrink 0 (editSrem members) s)
  | .sismember member => answer .found (inspect false (Cell.readMember member) s)
  | .expire duration => answer .expired (expireIn duration now s)
  | .ttl => answer .time (timeLeft Duration.asSecs now s)
  | .pttl => answer .time (timeLeft Duration.asMillis now s)

/-! ## The code has that meaning -/

@[simp] theorem CacheEntry.live_item (entry : CacheEntry) (now : Instant) :
    entry.item.live now = !entry.isExpired now := by
  rw [Leased.live, item, isExpired]
  cases entry.expiresAt with
  | none => rfl
  | some d =>
    rw [Option.all_some, ← decide_not, decide_eq_decide, ge_iff_le, Nat.not_le]

/-- A code result agrees with a meaning at a time: same answer, same visible item. -/
structure Agree (now : Instant) (x : ρ × Cell) (y : ρ × Option Item) : Prop where
  result : x.1 = y.1
  state : visible now (x.2.slot.map CacheEntry.item) = visible now y.2

theorem Agree.answer {now : Instant} {x : ρ × Cell} {y : ρ × Option Item} (h : Agree now x y)
    (wrap : ρ → Answer) : Agree now (answer wrap x) (answer wrap y) :=
  ⟨congrArg wrap h.result, h.state⟩

namespace Cell

/-- What a client sees under the key. -/
def item (now : Instant) (c : Cell) : Option Item := visible now (c.slot.map CacheEntry.item)

variable {key : Bytes} {clock : Clock} {c : Cell} {entry : CacheEntry}

theorem item_none {now : Instant} (h : c.slot = none) : c.item now = none := by
  rw [item, h]
  rfl

theorem item_expired {now : Instant} (h : c.slot = some entry) (he : entry.isExpired now = true) :
    c.item now = none := by
  rw [item, h, Option.map_some, visible_of_not_live (by simp [he])]

theorem item_live {now : Instant} (h : c.slot = some entry) (he : entry.isExpired now = false) :
    c.item now = some entry.item := by
  rw [item, h, Option.map_some, visible_of_live (by simp [he])]

/-- Nothing visible is left where nothing was, or the entry was removed. -/
theorem agree_gone {now : Instant} {r : ρ} {c : Cell} (h : c.item now = none) :
    Agree now (r, c) (r, none) :=
  ⟨rfl, h⟩

theorem agree_same {now : Instant} {r : ρ} {c : Cell} {it : Item} (h : c.item now = some it) :
    Agree now (r, c) (r, some it) := by
  refine ⟨rfl, ?_⟩
  have hvis := congrArg (visible now) h
  rwa [item, visible_visible le_rfl] at hvis

theorem agree_put {now : Instant} {r : ρ} {c : Cell} {entry : CacheEntry} {it : Item}
    (h : c.slot = some entry) (hit : entry.item = it) : Agree now (r, c) (r, some it) := by
  refine ⟨rfl, ?_⟩
  simp only [h, Option.map_some, hit]

theorem agree_lookup {absent : ρ} {read : DataType → Option (ρ × Bool)} :
    Agree clock.now (lookup absent read clock c) (Item.inspect absent read (c.item clock.now)) := by
  rw [lookup]
  cases hslot : c.slot with
  | none =>
    rw [item_none hslot]
    exact agree_gone (item_none hslot)
  | some entry =>
    cases hexp : entry.isExpired clock.now with
    | true =>
      simp only [item_expired hslot hexp, hexp, if_true]
      exact agree_gone (item_expired hslot hexp)
    | false =>
      simp only [item_live hslot hexp, hexp, Item.inspect, Bool.false_eq_true, if_false]
      have hdata : entry.item.value = entry.data := rfl
      rw [hdata]
      cases read entry.data with
      | none => exact agree_same (item_live hslot hexp)
      | some r =>
        exact @agree_put _ _ _ _ { entry with lastAccessed := clock.millis } _
          (by split <;> rfl) rfl

theorem agree_getLive (hexp : entry.isExpired clock.now = false) :
    Agree clock.now (getLive entry clock c)
      (Item.inspect none Item.readString (some entry.item)) := by
  have hput : (c.put { entry with lastAccessed := clock.millis }).recordHit.item clock.now =
      some entry.item := @item_live _ { entry with lastAccessed := clock.millis } _ rfl hexp
  rw [getLive, Item.inspect]
  generalize (c.put { entry with lastAccessed := clock.millis }).recordHit = d at hput
  have hdata : entry.item.value = entry.data := rfl
  rw [hdata]
  cases entry.data <;> exact agree_same hput

theorem agree_get :
    Agree clock.now (get key clock c) (Item.inspect none Item.readString (c.item clock.now)) := by
  rw [get, getRead]
  cases hslot : c.slot with
  | none =>
    rw [item_none hslot]
    exact agree_gone (item_none hslot)
  | some entry =>
    cases hexp : entry.isExpired clock.now with
    | true =>
      simp only [item_expired hslot hexp, if_true, getWrite, hslot, hexp]
      exact agree_gone (item_none rfl)
    | false =>
      simp only [item_live hslot hexp, hexp, Bool.false_eq_true, if_false]
      exact agree_getLive hexp

theorem agree_remaining {unit : Duration → Nat} :
    Agree clock.now (remaining unit clock c)
      (Item.timeLeft unit clock.now (c.item clock.now)) := by
  rw [remaining]
  cases hslot : c.slot with
  | none =>
    rw [item_none hslot]
    exact agree_gone (item_none hslot)
  | some entry =>
    cases hd : entry.expiresAt with
    | none =>
      have hexp : entry.isExpired clock.now = false := by rw [CacheEntry.isExpired, hd]
      have hdead : entry.item.deadline = none := hd
      simp only [item_live hslot hexp, hd, Item.timeLeft, hdead]
      exact agree_same (item_live hslot hexp)
    | some d =>
      by_cases hnow : clock.now ≥ d
      · have hexp : entry.isExpired clock.now = true := by
          rw [CacheEntry.isExpired, hd]
          exact decide_eq_true hnow
        simp only [item_expired hslot hexp, hd, if_pos hnow]
        exact agree_gone (item_expired hslot hexp)
      · have hexp : entry.isExpired clock.now = false := by
          rw [CacheEntry.isExpired, hd]
          exact decide_eq_false hnow
        have hdead : entry.item.deadline = some d := hd
        simp only [item_live hslot hexp, hd, Item.timeLeft, hdead, if_neg hnow]
        exact agree_same (item_live hslot hexp)

theorem agree_set {value : Bytes} {expiresAt : Option Instant} :
    Agree clock.now (Answer.done, set key value expiresAt clock c)
      (.done, some { value := .string value, deadline := expiresAt }) := by
  rw [set]
  cases c.slot <;> exact agree_put rfl rfl

theorem slot_evictExpired : (c.evictExpired key clock).slot.map CacheEntry.item =
    c.item clock.now := by
  rw [evictExpired]
  cases hslot : c.slot with
  | none => rw [item_none hslot, hslot, Option.map_none]
  | some entry =>
    cases hexp : entry.isExpired clock.now with
    | true =>
      simp only [hexp, if_true, item_expired hslot hexp]
      rfl
    | false =>
      simp only [hexp, Bool.false_eq_true, if_false, item_live hslot hexp, hslot, Option.map_some]

theorem agree_upsert {empty : DataType} {edit : DataType → Option (Edit Nat)} :
    Agree clock.now (upsert empty edit key clock c)
      (Item.create empty edit (c.item clock.now)) := by
  rw [upsert, ← @slot_evictExpired key]
  generalize c.evictExpired key clock = d
  rw [orInsert, Item.create]
  cases hslot : d.slot with
  | none =>
    simp only [Option.map_none, Option.getD_none]
    have hdata : (CacheEntry.new empty none clock.millis).data = empty := rfl
    rw [hdata]
    cases edit empty <;> exact agree_put rfl rfl
  | some entry =>
    simp only [Option.map_some, Option.getD_some]
    have hdata : entry.item.value = entry.data := rfl
    rw [hdata]
    cases edit entry.data with
    | none => exact agree_put hslot rfl
    | some e => exact agree_put rfl rfl

theorem slot_shrinkTo {e : Edit ρ} : (shrinkTo key entry e clock c).slot.map CacheEntry.item =
    if e.data.isEmpty then none else some { entry.item with value := e.data } := by
  rw [shrinkTo]
  split <;> rfl

theorem agree_shrinkTo {e : Edit ρ} {r : ρ} :
    Agree clock.now ((Except.ok r : Except String ρ), shrinkTo key entry e clock c)
      (.ok r, if e.data.isEmpty then none else some { entry.item with value := e.data }) :=
  ⟨rfl, by rw [slot_shrinkTo]⟩

theorem agree_pop {edit : DataType → Option (Edit (Option Bytes))} :
    Agree clock.now (pop edit key clock c) (Item.shrink none edit (c.item clock.now)) := by
  rw [pop]
  cases hslot : c.slot with
  | none =>
    rw [item_none hslot]
    exact agree_gone (item_none hslot)
  | some entry =>
    cases hexp : entry.isExpired clock.now with
    | true =>
      simp only [item_expired hslot hexp, hexp, if_true]
      exact agree_gone (item_none rfl)
    | false =>
      simp only [item_live hslot hexp, hexp, Item.shrink, Bool.false_eq_true, if_false]
      have hdata : entry.item.value = entry.data := rfl
      rw [hdata]
      cases edit entry.data with
      | none => exact agree_same (item_live hslot hexp)
      | some e => exact agree_shrinkTo

theorem agree_removal {edit : DataType → Option (Edit Nat)} :
    Agree clock.now (removal edit key clock c) (Item.shrink 0 edit (c.item clock.now)) := by
  rw [removal]
  cases hslot : c.slot with
  | none =>
    rw [item_none hslot]
    exact agree_gone (item_none hslot)
  | some entry =>
    cases hexp : entry.isExpired clock.now with
    | true =>
      simp only [item_expired hslot hexp, hexp, if_true]
      exact agree_gone (item_none rfl)
    | false =>
      simp only [item_live hslot hexp, hexp, Item.shrink, Bool.false_eq_true, if_false]
      have hdata : entry.item.value = entry.data := rfl
      rw [hdata]
      cases edit entry.data with
      | none => exact agree_same (item_live hslot hexp)
      | some e => exact agree_shrinkTo

theorem agree_expire {duration : Duration} :
    Agree clock.now (expire key duration clock c)
      (Item.expireIn duration clock.now (c.item clock.now)) := by
  rw [expire]
  cases hslot : c.slot with
  | none =>
    rw [item_none hslot]
    exact agree_gone (item_none hslot)
  | some entry =>
    cases hexp : entry.isExpired clock.now with
    | true =>
      simp only [item_expired hslot hexp, hexp, if_true]
      exact agree_gone (item_none rfl)
    | false =>
      simp only [item_live hslot hexp, hexp, Item.expireIn, Bool.false_eq_true, if_false]
      cases Instant.add clock.now duration with
      | none => exact agree_same (item_live hslot hexp)
      | some d => exact agree_put rfl rfl

end Cell

/-- Every operation on a cell does to the visible item what it means. -/
theorem KeyOp.onCell_refines (op : KeyOp) (key : Bytes) (clock : Clock) (c : Cell) :
    Agree clock.now (op.onCell key clock c) (op.onItem clock.now (c.item clock.now)) := by
  cases op with
  | get => exact Cell.agree_get.answer _
  | set value expiresAt => exact Cell.agree_set
  | lpush els => exact Cell.agree_upsert.answer _
  | rpush els => exact Cell.agree_upsert.answer _
  | hset fields => exact Cell.agree_upsert.answer _
  | sadd members => exact Cell.agree_upsert.answer _
  | lpop => exact Cell.agree_pop.answer _
  | rpop => exact Cell.agree_pop.answer _
  | hdel fields => exact Cell.agree_removal.answer _
  | srem members => exact Cell.agree_removal.answer _
  | lrange start stop => exact Cell.agree_lookup.answer _
  | hget field => exact Cell.agree_lookup.answer _
  | hgetall => exact Cell.agree_lookup.answer _
  | smembers => exact Cell.agree_lookup.answer _
  | sismember member => exact Cell.agree_lookup.answer _
  | expire duration => exact Cell.agree_expire.answer _
  | ttl => exact Cell.agree_remaining.answer _
  | pttl => exact Cell.agree_remaining.answer _

end InMemoryCache
