-- SUMMARY: What DEL removes and counts, and when the sweeper makes a difference to its reply.
import InMemoryCache.Lib.Domain
import InMemoryCache.Store.Sweep
import InMemoryCache.Store.Ttl

/-!
# DEL

`del` removes what is stored under its keys and counts what it removes, without a look at
the deadlines. Its reply is the number of live keys exactly if none of the keys is stored
with a deadline that has passed, and then it does not matter what the sweeper removed before.
-/

namespace InMemoryCache

open Lib

namespace Db

variable {cfg : Config}

theorem entry_locked_ne (db : Db cfg) {key k : Bytes} (h : k ≠ key) (f : Cell → α × Cell) :
    (db.locked key f).2.entry k = db.entry k := by
  show ((db.putCellAt _ key _).shards _).get? k = _
  rw [get?_putCellAt, if_neg fun hjk => h hjk.2]
  rfl

/-- `del` removes every listed key and counts each one that is stored once. -/
theorem del_spec (db : Db cfg) (keys : List Bytes) :
    (db.del keys).1 = (keys.toFinset.filter fun key => (db.entry key).isSome).card ∧
      ∀ key, (db.del keys).2.entry key = if key ∈ keys then none else db.entry key := by
  induction keys generalizing db with
  | nil => exact ⟨rfl, fun key => (if_neg List.not_mem_nil).symm⟩
  | cons key keys ih =>
    obtain ⟨hcount, hentry⟩ := ih (db.locked key (Cell.del key)).2
    have hremoved : (db.locked key (Cell.del key)).1 = if (db.entry key).isSome then 1 else 0 := by
      show (Cell.del key (db.cellAt (getShardIndex cfg key) key)).1 = _
      rw [Cell.del, slot_cellAt, entry]
      cases (db.shards (getShardIndex cfg key)).get? key <;> rfl
    have hafter : ∀ k, (db.locked key (Cell.del key)).2.entry k =
        if k = key then none else db.entry k := by
      intro k
      by_cases hk : k = key
      · rw [if_pos hk, hk, entry_locked, slot_del]
      · rw [if_neg hk, entry_locked_ne db hk]
    constructor
    · show (db.locked key (Cell.del key)).1 + ((db.locked key (Cell.del key)).2.del keys).1 = _
      rw [card_filter_cons, hcount, hremoved, Nat.add_comm]
      congr 2
      refine Finset.filter_congr fun k _ => ?_
      rw [hafter]
      by_cases hk : k = key
      · simp [hk]
      · simp [hk]
    · intro k
      show ((db.locked key (Cell.del key)).2.del keys).2.entry k = _
      rw [hentry, hafter]
      by_cases hk : k = key
      · simp [hk]
      · simp [hk]

/-! ## The sweeper -/

/-- Steps of the sweeper, none of them after `now`. -/
def Sweeps (now : Instant) (ops : List (Env × Op)) : Prop :=
  ∀ x ∈ ops, x.1.clock.now ≤ now ∧ ∃ sampleSize shard draws, x.2 = .purge sampleSize shard draws

theorem isExpired_of_le {entry : CacheEntry} {t now : Instant} (h : t ≤ now)
    (hexpired : entry.isExpired t = true) : entry.isExpired now = true := by
  obtain ⟨deadline, hdeadline, hle⟩ := le_of_isExpired hexpired
  rw [CacheEntry.isExpired, hdeadline]
  exact decide_eq_true (hle.trans h)

/-- The sweeper adds no entry and leaves every live one. -/
theorem entry_purge {db : Db cfg} {env : Env} {now : Instant} (h : env.clock.now ≤ now)
    (sampleSize shard : Nat) (draws : Nat → Nat) {key : Bytes}
    (hlive : ∀ entry, db.entry key = some entry → entry.isExpired now = false) :
    (db.perform env (.purge sampleSize shard draws)).2.entry key = db.entry key := by
  obtain ⟨hswept, -⟩ := purgeRemove_spec db (drawShard cfg shard) env.clock.now
    (db.purgeSample (drawShard cfg shard) env.clock.now sampleSize draws).2
  refine (hswept.entries _ key).trans (if_neg ?_)
  rintro ⟨hshard, hgone⟩
  obtain ⟨entry, hdue⟩ := Option.isSome_iff_exists.mp hgone
  obtain ⟨-, hget, hexpired⟩ := get?_due.mp hdue
  rw [← hshard] at hget
  have hnow := isExpired_of_le h hexpired
  rw [hlive entry hget] at hnow
  cases hnow

theorem entry_sweeps {db : Db cfg} {now : Instant} {ops : List (Env × Op)} (h : Sweeps now ops)
    {key : Bytes} (hlive : ∀ entry, db.entry key = some entry → entry.isExpired now = false) :
    (db.run ops).entry key = db.entry key := by
  induction ops generalizing db with
  | nil => rfl
  | cons x ops ih =>
    obtain ⟨env, op⟩ := x
    obtain ⟨hle, sampleSize, shard, draws, hop⟩ := h _ List.mem_cons_self
    dsimp only at hle hop
    subst hop
    have hstep := entry_purge hle sampleSize shard draws hlive
    rw [run, ih (fun x hx => h x (List.mem_cons_of_mem _ hx)) (by rwa [hstep]), hstep]

/-! ## The reply -/

/-- None of the keys is stored with a deadline that has passed. -/
def NoneExpired (db : Db cfg) (now : Instant) (keys : List Bytes) : Prop :=
  ∀ key ∈ keys, ∀ entry, db.entry key = some entry → entry.isExpired now = false

/-- The listed keys that are live. -/
def liveAmong (db : Db cfg) (now : Instant) (keys : List Bytes) : Finset Bytes :=
  keys.toFinset.filter fun key => (db.item now key).isSome

/-- `DEL` replies the number of listed keys that are live, which are those for which `TTL`
does not answer -2, and the same whatever the sweeper removed before. -/
def CountsLive (db : Db cfg) (keys : List Bytes) (env : Env) : Prop :=
  (db.del keys).1 = (db.liveAmong env.clock.now keys).card ∧
    (db.del keys).1 = (keys.toFinset.filter fun key => (db.ttl key env).1 ≠ -2).card ∧
    ∀ ops, Sweeps env.clock.now ops → ((db.run ops).del keys).1 = (db.del keys).1

section

variable {db : Db cfg} {keys : List Bytes} {now : Instant} {env : Env} {key : Bytes}

/-- A key is live if it is stored and its deadline has not passed. -/
theorem isSome_item : (db.item now key).isSome ↔
    ∃ entry, db.entry key = some entry ∧ entry.isExpired now = false := by
  rw [item, Leased.visible, Option.isSome_filter]
  cases db.entry key with
  | none => simp
  | some entry => simp

/-- The stored keys of a list are the live ones exactly if none has expired. -/
theorem stored_eq_live_iff :
    (keys.toFinset.filter fun key => (db.entry key).isSome).card =
      (db.liveAmong now keys).card ↔ db.NoneExpired now keys := by
  have hsubset : db.liveAmong now keys ⊆
      keys.toFinset.filter fun key => (db.entry key).isSome := by
    intro key hkey
    obtain ⟨hmem, hlive⟩ := Finset.mem_filter.mp hkey
    obtain ⟨entry, hentry, -⟩ := isSome_item.mp hlive
    exact Finset.mem_filter.mpr ⟨hmem, by rw [hentry]; rfl⟩
  constructor
  · intro hcard key hkey entry hentry
    have hstored : key ∈ keys.toFinset.filter fun key => (db.entry key).isSome :=
      Finset.mem_filter.mpr ⟨List.mem_toFinset.mpr hkey, by rw [hentry]; rfl⟩
    rw [← Finset.eq_of_subset_of_card_le hsubset hcard.le] at hstored
    obtain ⟨entry', hentry', hlive⟩ := isSome_item.mp (Finset.mem_filter.mp hstored).2
    rw [hentry] at hentry'
    cases hentry'
    exact hlive
  · intro hnone
    congr 1
    refine Finset.filter_congr fun key hkey => ?_
    rw [isSome_item, Option.isSome_iff_exists]
    refine exists_congr fun entry => (and_iff_left_of_imp fun hentry => ?_).symm
    exact hnone key (List.mem_toFinset.mp hkey) entry hentry

end

/-- `DEL` removes the listed keys and leaves the others. It counts the live ones exactly if
none of the keys is stored with a deadline that has passed. -/
theorem del_counts_live_iff (db : Db cfg) (keys : List Bytes) (env : Env)
    (h : ∀ key ∈ keys, ∀ it d, db.item env.clock.now key = some it → it.deadline = some d →
      d.Valid) :
    (∀ key, (db.del keys).2.entry key = if key ∈ keys then none else db.entry key) ∧
      (db.CountsLive keys env ↔ db.NoneExpired env.clock.now keys) := by
  obtain ⟨hcount, hentry⟩ := del_spec db keys
  refine ⟨hentry, ?_⟩
  have httl : (keys.toFinset.filter fun key => (db.ttl key env).1 ≠ -2) =
      db.liveAmong env.clock.now keys := by
    refine Finset.filter_congr fun key hkey => ?_
    rw [Ne, ttl_eq_neg_two (h key (List.mem_toFinset.mp hkey)), Option.isSome_iff_ne_none]
  rw [CountsLive, httl, ← stored_eq_live_iff, hcount]
  refine ⟨fun hlive => hlive.1, fun hlive => ⟨hlive, hlive, fun ops hsweeps => ?_⟩⟩
  have hnone := stored_eq_live_iff.mp hlive
  rw [(del_spec (db.run ops) keys).1]
  congr 1
  refine Finset.filter_congr fun key hkey => ?_
  rw [entry_sweeps hsweeps (hnone key (List.mem_toFinset.mp hkey))]

/-- A key listed twice, and one that is absent. -/
theorem del_counts_live_twice :
    let env : Env := { clock := { now := 0, millis := 0 }, draws := fun _ _ => (0, 0) }
    let db := (empty : Db (.standard 0 List.length)).run [(env, .on [107] (.set [118] none))]
    db.CountsLive [[107], [107], [106, 106]] env ∧ (db.del [[107], [107], [106, 106]]).1 = 1 := by
  intro env db
  have hitem : db.item env.clock.now [107] = some { value := .string [118], deadline := none } := by
    decide +kernel
  have hnone : db.item env.clock.now [106, 106] = none := by decide +kernel
  refine ⟨(del_counts_live_iff db [[107], [107], [106, 106]] env ?_).2.mpr ?_, by decide +kernel⟩
  · intro key hkey it d hsome hd
    simp only [List.mem_cons, List.not_mem_nil, or_false] at hkey
    rcases hkey with rfl | rfl | rfl
    · rw [hitem] at hsome
      cases hsome
      cases hd
    · rw [hitem] at hsome
      cases hsome
      cases hd
    · rw [hnone] at hsome
      cases hsome
  · exact stored_eq_live_iff.mp (by decide +kernel)

/-- `DEL` of a key whose deadline has passed: `TTL` answers -2 and `DEL` replies 1, or 0 if
the sweeper came first. -/
theorem expired_counted :
    let env : Nat → Env := fun t =>
      { clock := { now := t, millis := 0 }, draws := fun _ _ => (0, 0) }
    let db := (empty : Db (.standard 0 List.length)).run [(env 0, .on [107] (.set [118] (some 1)))]
    let sweep : List (Env × Op) := [(env 2, .purge 1 1 fun _ => 0)]
    (db.ttl [107] (env 2)).1 = -2 ∧ (db.del [[107]]).1 = 1 ∧ Sweeps 2 sweep ∧
      ((db.run sweep).del [[107]]).1 = 0 ∧ ¬ db.CountsLive [[107]] (env 2) := by
  intro env db sweep
  have hbefore : (db.del [[107]]).1 = 1 := by decide +kernel
  have hafter : ((db.run sweep).del [[107]]).1 = 0 := by decide +kernel
  have hsweeps : Sweeps 2 sweep := by
    intro x hx
    rw [List.mem_singleton.mp hx]
    exact ⟨Nat.le_refl 2, 1, 1, _, rfl⟩
  refine ⟨by decide +kernel, hbefore, hsweeps, hafter, fun hcounts => ?_⟩
  have hsame := hcounts.2.2 sweep hsweeps
  rw [hbefore, hafter] at hsame
  cases hsame

end Db

end InMemoryCache
