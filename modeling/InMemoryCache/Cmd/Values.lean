-- SUMMARY: Keys and values without deadlines, and what commands make of them at any time.
import InMemoryCache.Cmd.Effect
import InMemoryCache.Store.Same

/-!
# Values

A store that has set no deadline holds values only, and holds them at every later time.
`Command.update` is what a command does to such values. A request that sets no deadline
on a key that is there `Means` the same update whenever it is executed.
-/

namespace InMemoryCache

open Lib Leased Cmd

/-- What is stored under each key. -/
abbrev Values := Bytes → Option DataType

/-- The same contents under every key. -/
def Values.Same (v w : Values) : Prop := ∀ key, Option.Rel DataType.Same (v key) (w key)

theorem Values.same_equivalence : Equivalence Values.Same where
  refl v key := (rel_equivalence DataType.same_equivalence).refl (v key)
  symm h key := (rel_equivalence DataType.same_equivalence).symm (h key)
  trans h h' key := (rel_equivalence DataType.same_equivalence).trans (h key) (h' key)

/-- A value without a deadline. -/
def persistent (v : DataType) : Item where
  value := v
  deadline := none

theorem sameSlot_persistent {v w : Option DataType} (h : Option.Rel DataType.Same v w) :
    SameSlot (v.map persistent) (w.map persistent) := by
  cases h with
  | none => exact .none
  | some hd => exact .some ⟨hd, rfl⟩

theorem rel_value {s t : Option Item} (h : SameSlot s t) :
    Option.Rel DataType.Same (s.map Leased.value) (t.map Leased.value) := by
  cases h with
  | none => exact .none
  | some hitem => exact .some hitem.value

theorem visible_persistent (now : Instant) (v : Option DataType) :
    visible now (v.map persistent) = v.map persistent := by
  cases v with
  | none => rfl
  | some v => exact visible_of_live rfl

/-- No deadline, if anything is there. -/
def Undated (s : Option Item) : Prop := ∀ it, s = some it → it.deadline = none

theorem undated_none : Undated none := by
  intro it h
  cases h

theorem undated_some {it : Item} (h : it.deadline = none) : Undated (some it) := by
  rintro _ ⟨⟩
  exact h

theorem undated_persistent (v : Option DataType) : Undated (v.map persistent) := by
  cases v with
  | none => exact undated_none
  | some v => exact undated_some rfl

/-- Without a deadline an item is its value. -/
theorem Undated.map_persistent {s : Option Item} (h : Undated s) :
    (s.map Leased.value).map persistent = s := by
  cases s with
  | none => rfl
  | some it =>
    have hdeadline := h it rfl
    obtain ⟨v, d⟩ := it
    cases hdeadline
    rfl

theorem Undated.visible {s : Option Item} (h : Undated s) (now : Instant) :
    Undated (visible now s) := by
  intro it hit
  exact h it (Option.filter_eq_some_iff.mp hit).1

theorem Undated.visible_eq {s : Option Item} (h : Undated s) (now : Instant) :
    Leased.visible now s = s := by
  rw [← h.map_persistent, visible_persistent]

/-! ## Operations on undated items -/

theorem undated_inspect {absent : ρ} {read : DataType → Option (ρ × Bool)} {s : Option Item}
    (h : Undated s) : Undated (Item.inspect absent read s).2 := by
  rw [inspect_snd]
  exact h

theorem undated_create {empty : DataType} {edit : DataType → Option (Edit Nat)} {s : Option Item}
    (h : Undated s) : Undated (Item.create empty edit s).2 := by
  have hdeadline : (s.getD { value := empty, deadline := none }).deadline = none := by
    cases s with
    | none => rfl
    | some it => exact h it rfl
  rw [Item.create]
  split
  · exact undated_some hdeadline
  · exact undated_some hdeadline

theorem undated_shrink {absent : ρ} {edit : DataType → Option (Edit ρ)} {s : Option Item}
    (h : Undated s) : Undated (Item.shrink absent edit s).2 := by
  cases s with
  | none => exact undated_none
  | some it =>
    rw [Item.shrink]
    split
    · dsimp only
      split
      · exact undated_none
      · exact undated_some (h it rfl)
    · exact h

/-- Only `SET` and `EXPIRE` set a deadline. -/
theorem KeyOp.undated_onItem {op : KeyOp} (hset : ∀ v d, op ≠ .set v d)
    (hexpire : ∀ d, op ≠ .expire d) (now : Instant) {s : Option Item} (h : Undated s) :
    Undated (op.onItem now s).2 := by
  cases op with
  | set v d => exact absurd rfl (hset v d)
  | expire d => exact absurd rfl (hexpire d)
  | get => exact undated_inspect h
  | lrange start stop => exact undated_inspect h
  | hget field => exact undated_inspect h
  | hgetall => exact undated_inspect h
  | smembers => exact undated_inspect h
  | sismember member => exact undated_inspect h
  | lpush elements => exact undated_create h
  | rpush elements => exact undated_create h
  | hset fields => exact undated_create h
  | sadd members => exact undated_create h
  | lpop => exact undated_shrink h
  | rpop => exact undated_shrink h
  | hdel fields => exact undated_shrink h
  | srem members => exact undated_shrink h
  | ttl => exact (timeLeft_snd Duration.asSecs now s).symm ▸ h
  | pttl => exact (timeLeft_snd Duration.asMillis now s).symm ▸ h

/-- Only `EXPIRE` looks at the clock to change an item. -/
theorem KeyOp.onItem_congr {op : KeyOp} (h : ∀ d, op ≠ .expire d) (now t : Instant)
    (s : Option Item) : (op.onItem now s).2 = (op.onItem t s).2 := by
  cases op with
  | expire d => exact absurd rfl (h d)
  | ttl => exact (timeLeft_snd _ now s).trans (timeLeft_snd _ t s).symm
  | pttl => exact (timeLeft_snd _ now s).trans (timeLeft_snd _ t s).symm
  | _ => rfl

/-! ## Stores that hold values -/

variable {cfg : Config}

/-- From `now` on the store shows exactly these values, without deadlines. -/
def Db.Holds (db : Db cfg) (now : Instant) (values : Values) : Prop :=
  ∀ t, now ≤ t → ∀ key, db.item t key = (values key).map persistent

/-- What is visible later is what of the visible has not expired by then. -/
theorem Db.item_of_le {db : Db cfg} {now t : Instant} (h : now ≤ t) (key : Bytes) :
    db.item t key = visible t (db.item now key) := by
  rw [item, item, visible_visible h]

theorem Db.holds_empty (now : Instant) : (Db.empty : Db cfg).Holds now fun _ => none := by
  intro t _ key
  rfl

theorem Db.Holds.mono {db : Db cfg} {now t : Instant} {values : Values} (h : db.Holds now values)
    (hle : now ≤ t) : db.Holds t values := fun u hu => h u (hle.trans hu)

namespace Command

/-- What a command executed at `now` does to values. -/
def update (now : Instant) (cmd : Command) (values : Values) : Values := fun key =>
  (visible now (cmd.effect now key ((values key).map persistent))).map Leased.value

/-- The action on a key leaves the same of the same items. -/
theorem same_effect (now : Instant) (cmd : Command) (key : Bytes) {s t : Option Item}
    (h : SameSlot s t) : SameSlot (cmd.effect now key s) (cmd.effect now key t) := by
  rw [effect, effect]
  split
  · rename_i k op hop
    split
    · exact op.same_onItem now h
    · exact h
  · split
    · exact .none
    · exact h

/-- A command makes the same of the same values. -/
theorem same_update (now : Instant) (cmd : Command) {v w : Values} (h : Values.Same v w) :
    Values.Same (cmd.update now v) (cmd.update now w) := by
  intro key
  exact rel_value (same_visible (cmd.same_effect now key (sameSlot_persistent (h key))) now)

/-- The command gives a key that is there a deadline yet to come. -/
def Dates (now : Instant) (present : Bytes → Prop) : Command → Prop
  | .set cmd => ∃ d, cmd.expiresAt = some d ∧ now < d
  | .expire cmd => cmd.duration ≠ 0 ∧ present cmd.key
  | _ => False

/-- The keys that hold a value. -/
def present (values : Values) (key : Bytes) : Prop := values key ≠ none

theorem eq_set_of_keyOp {cmd : Command} {key v : Bytes} {d : Option Instant}
    (h : cmd.keyOp = some (key, .set v d)) :
    cmd = .set { key := key, value := v, expiresAt := d } := by
  cases cmd with
  | set cmd => cases h; rfl
  | ttl cmd =>
    rw [keyOp, Option.some.injEq, Prod.mk.injEq] at h
    obtain ⟨-, hop⟩ := h
    split at hop <;> cases hop
  | list cmd => cases cmd <;> cases h
  | hash cmd => cases cmd <;> cases h
  | setCmd cmd => cases cmd <;> cases h
  | _ => cases h

theorem eq_expire_of_keyOp {cmd : Command} {key : Bytes} {d : Duration}
    (h : cmd.keyOp = some (key, .expire d)) : cmd = .expire { key := key, duration := d } := by
  cases cmd with
  | expire cmd => cases h; rfl
  | ttl cmd =>
    rw [keyOp, Option.some.injEq, Prod.mk.injEq] at h
    obtain ⟨-, hop⟩ := h
    split at hop <;> cases hop
  | list cmd => cases cmd <;> cases h
  | hash cmd => cases cmd <;> cases h
  | setCmd cmd => cases cmd <;> cases h
  | _ => cases h

/-- The command has no time to live to set. -/
def NoTtl : Command → Prop
  | .set cmd => cmd.expiresAt = none
  | .expire _ => False
  | _ => True

theorem NoTtl.not_dates {cmd : Command} (h : cmd.NoTtl) (now : Instant) (p : Bytes → Prop) :
    ¬ cmd.Dates now p := by
  cases cmd with
  | set c =>
    rintro ⟨d, hd, -⟩
    rw [NoTtl, hd] at h
    cases h
  | expire c => exact absurd h not_false
  | _ => exact not_false

theorem NoTtl.undated_effect {cmd : Command} (h : cmd.NoTtl) (now : Instant) (key : Bytes)
    {s : Option Item} (hs : Undated s) : Undated (cmd.effect now key s) := by
  rw [effect]
  cases hop : cmd.keyOp with
  | none =>
    dsimp only
    split
    · exact undated_none
    · exact hs
  | some kop =>
    obtain ⟨k, op⟩ := kop
    dsimp only
    split
    · cases op with
      | set v d =>
        cases eq_set_of_keyOp hop
        exact undated_some h
      | expire d =>
        cases eq_expire_of_keyOp hop
        exact absurd h not_false
      | _ => exact KeyOp.undated_onItem (fun _ _ h => by cases h) (fun _ h => by cases h) now hs
    · exact hs

/-- What has a deadline not yet to come is gone. -/
theorem visible_deadline {now d : Instant} {it : Item} (hd : it.deadline = some d)
    (h : ¬ now < d) : visible now (some it) = none := by
  refine visible_of_not_live ?_
  rw [live, hd, Option.all_some]
  exact decide_eq_false h

/-- An item given no time to live at all is gone. -/
theorem visible_expireIn_zero {now : Instant} (h : now.Valid) (it : Item) :
    visible now (Item.expireIn 0 now (some it)).2 = none := by
  have hadd : Instant.add now 0 = some now := if_pos h
  simp only [Item.expireIn, hadd]
  exact visible_deadline rfl (Nat.lt_irrefl now)

/-- A command that dates nothing leaves no deadline in sight. -/
theorem undated_effect {now : Instant} {cmd : Command} {values : Values}
    (h : ¬ cmd.Dates now (present values)) (key : Bytes) :
    Undated (visible now (cmd.effect now key ((values key).map persistent))) := by
  have hvalues := undated_persistent (values key)
  by_cases hnone : cmd.NoTtl
  · exact (hnone.undated_effect now key hvalues).visible now
  · cases cmd with
    | set c =>
      show Undated (visible now (if key = c.key then some _ else _))
      split
      · cases hd : c.expiresAt with
        | none => exact absurd hd hnone
        | some d =>
          rw [visible_deadline (d := d) rfl fun hlt => h ⟨d, hd, hlt⟩]
          exact undated_none
      · exact hvalues.visible now
    | expire c =>
      show Undated (visible now (if key = c.key then (Item.expireIn c.duration now _).2 else _))
      split
      · rename_i hk
        cases hv : values key with
        | none => exact undated_none
        | some v =>
          have hzero : c.duration = 0 := by
            by_contra hne
            exact h ⟨hne, by rw [present, ← hk, hv]; simp⟩
          rw [hzero, Option.map_some]
          by_cases hvalid : now.Valid
          · rw [visible_expireIn_zero hvalid]
            exact undated_none
          · have hadd : Instant.add now 0 = none := if_neg hvalid
            simp only [Item.expireIn, hadd]
            exact (undated_some rfl).visible now
      · exact hvalues.visible now
    | _ => exact absurd trivial hnone

end Command

open Command

/-- Executing a command that dates nothing updates the values. -/
theorem Db.Holds.apply (hmax : cfg.maxmemory = 0) {db : Db cfg} {now : Instant} {values : Values}
    (h : db.Holds now values) {cmd : Command} {ctx : Ctx} (hle : now ≤ ctx.clock.now)
    (hdates : ¬ cmd.Dates ctx.clock.now (present values)) :
    (cmd.apply ctx db).2.Holds ctx.clock.now (cmd.update ctx.clock.now values) := by
  intro t ht key
  calc (cmd.apply ctx db).2.item t key
      = visible t ((cmd.apply ctx db).2.item ctx.clock.now key) := item_of_le ht key
    _ = visible t (visible ctx.clock.now
          (cmd.effect ctx.clock.now key ((values key).map persistent))) := by
        rw [item_apply hmax, h _ hle]
    _ = visible t ((cmd.update ctx.clock.now values key).map persistent) := by
        rw [update, (undated_effect hdates key).map_persistent]
    _ = (cmd.update ctx.clock.now values key).map persistent := visible_persistent t _

/-- What `EXPIRE` answers depends on the visible item. -/
theorem Db.expire_eq (db : Db cfg) (key : Bytes) (duration : Duration) (env : Env) :
    (db.expire key duration env).1 =
      (Item.expireIn duration env.clock.now (db.item env.clock.now key)).1 := by
  have h := (KeyOp.onCell_refines (.expire duration) key env.clock
    (db.cellAt (getShardIndex cfg key) key)).result
  exact Answer.expired.inj h

/-- A command that dates nothing does not panic at a time that an `Instant` can hold. -/
theorem Db.Holds.apply_ne_none {db : Db cfg} {now : Instant} {values : Values}
    (h : db.Holds now values) {cmd : Command} {ctx : Ctx} (hle : now ≤ ctx.clock.now)
    (hdates : ¬ cmd.Dates ctx.clock.now (present values))
    (hvalid : ∀ c, cmd = .expire c → ctx.clock.now.Valid) : (cmd.apply ctx db).1 ≠ none := by
  intro hnone
  obtain ⟨key, duration, rfl, hover⟩ := apply_eq_none hnone
  cases hv : values key with
  | none =>
    have hanswer : (db.expire key duration ctx.toEnv).1 = some false := by
      rw [Db.expire_eq, h _ hle, hv]
      rfl
    rw [Command.apply, Expire.apply, Option.map_eq_none_iff, hanswer] at hnone
    cases hnone
  | some v =>
    have hzero : duration = 0 := by
      by_contra hne
      exact hdates ⟨hne, by rw [present, hv]; simp⟩
    rw [hzero] at hover
    exact (Instant.add_ne_none (d := 0)).mpr (hvalid _ rfl) hover

/-! ## The same request at another time -/

namespace Command

/-- Only `EXPIRE` looks at the clock to change what is under a key. -/
theorem effect_congr {cmd : Command} (h : ∀ c, cmd ≠ .expire c) (now t : Instant) (key : Bytes)
    (s : Option Item) : cmd.effect now key s = cmd.effect t key s := by
  rw [effect, effect]
  cases hop : cmd.keyOp with
  | none => rfl
  | some kop =>
    obtain ⟨k, op⟩ := kop
    dsimp only
    rw [KeyOp.onItem_congr fun d hd => h _ (eq_expire_of_keyOp (hd ▸ hop))]

theorem NoTtl.ne_expire {cmd : Command} (h : cmd.NoTtl) (c : Cmd.Expire) : cmd ≠ .expire c := by
  rintro rfl
  exact h

/-- A command without a time to live does the same at any time. -/
theorem NoTtl.update_eq {cmd : Command} (h : cmd.NoTtl) (now t : Instant) (values : Values) :
    cmd.update now values = cmd.update t values := by
  funext key
  have hundated := h.undated_effect now key (undated_persistent (values key))
  rw [update, update, effect_congr h.ne_expire t now, hundated.visible_eq, hundated.visible_eq]

/-- `EXPIRE` on what is not there, or with no time to live at all, does the same at any
time it does not panic. -/
theorem update_expire_eq {c : Cmd.Expire} {now t : Instant} {values : Values}
    (hzero : present values c.key → c.duration = 0) (hnow : now.Valid) (ht : t.Valid) :
    update t (.expire c) values = update now (.expire c) values := by
  funext key
  show (visible t (if key = c.key then (Item.expireIn c.duration t _).2 else _)).map Leased.value =
    (visible now (if key = c.key then (Item.expireIn c.duration now _).2 else _)).map Leased.value
  split
  · rename_i hk
    subst hk
    cases hv : values c.key with
    | none => rfl
    | some v =>
      have hpresent : present values c.key := by
        rw [present, hv]
        simp
      rw [hzero hpresent, Option.map_some, visible_expireIn_zero ht,
        visible_expireIn_zero hnow]
  · rw [visible_persistent, visible_persistent]

/-- `SET` with a deadline that has come does the same at any time. -/
theorem update_set_eq {key value : Bytes} {now t : Instant} (values : Values) :
    update t (.set { key := key, value := value, expiresAt := some t }) values =
      update now (.set { key := key, value := value, expiresAt := some now }) values := by
  funext k
  show (visible t (if k = key then some _ else _)).map Leased.value =
    (visible now (if k = key then some _ else _)).map Leased.value
  split
  · rw [visible_deadline rfl (Nat.lt_irrefl t), visible_deadline rfl (Nat.lt_irrefl now)]
  · rw [visible_persistent, visible_persistent]

variable [Unicode]

/-- A request without a time to live is the same command whenever it is parsed. -/
theorem NoTtl.fromFrame_eq {cmd : Command} (h : cmd.NoTtl) {f : Frame} {now : Instant}
    (hcmd : fromFrame now f = .ok cmd) (t : Instant) : fromFrame t f = .ok cmd := by
  obtain ⟨r, hr, -⟩ := fromFrame_request f
  rw [hr now] at hcmd
  rw [hr t]
  obtain ⟨q, rfl, hq⟩ := Outcome.bind_eq_ok.mp hcmd
  cases q with
  | plain c => exact hq
  | set key value duration =>
    cases duration with
    | none => exact hq
    | some d =>
      obtain ⟨expiresAt, hexp, hset⟩ := Outcome.bind_eq_ok.mp hq
      obtain ⟨d', -, hd'⟩ := Outcome.bind_eq_ok.mp hexp
      cases hd'
      cases hset
      cases h

/-- Executed at `now`, the request turns `values` into `values'` and dates nothing. -/
def MeansAt (now : Instant) (f : Frame) (values values' : Values) : Prop :=
  ∃ cmd, fromFrame now f = .ok cmd ∧ ¬ cmd.Dates now (present values) ∧
    (∀ c, cmd = .expire c → now.Valid) ∧ cmd.update now values = values'

theorem NoTtl.meansAt {cmd : Command} (h : cmd.NoTtl) {f : Frame} {now : Instant}
    (hcmd : fromFrame now f = .ok cmd) (t : Instant) (values : Values) :
    MeansAt t f values (cmd.update 0 values) :=
  ⟨cmd, h.fromFrame_eq hcmd t, h.not_dates t _, fun c hc => absurd hc (h.ne_expire c),
    h.update_eq t 0 values⟩

/-- A `SET` whose deadline has come as soon as it is parsed means the same at any time. -/
theorem meansAt_set_zero {r : Outcome String Request} {f : Frame} {key value : Bytes}
    {now t : Instant} (hr : fromFrame t f = r >>= Request.resolve t)
    (hset : r = .ok (.set key value (some 0))) (ht : t.Valid) (values : Values) :
    MeansAt t f values
      (update now (.set { key := key, value := value, expiresAt := some now }) values) := by
  refine ⟨.set { key := key, value := value, expiresAt := some t }, ?_, ?_, ?_, ?_⟩
  · have hadd : Instant.add t 0 = some t := if_pos ht
    rw [hr, hset, Outcome.ok_bind, Request.resolve, Cmd.deadline, hadd]
    rfl
  · rintro ⟨d, hd, hlt⟩
    cases hd
    exact Nat.lt_irrefl t hlt
  · intro c hc
    cases hc
  · exact update_set_eq values

/-- A request that dates nothing when it is executed means the same at any other time. -/
theorem meansAt_of_not_dates {cmd : Command} {f : Frame} {now t : Instant} {values : Values}
    (hcmd : fromFrame now f = .ok cmd) (hdates : ¬ cmd.Dates now (present values))
    (hnow : now.Valid) (ht : t.Valid) : MeansAt t f values (cmd.update now values) := by
  by_cases hnone : cmd.NoTtl
  · have h := hnone.meansAt hcmd t values
    rwa [hnone.update_eq 0 now] at h
  · obtain ⟨r, hr, hplain⟩ := fromFrame_request f
    rw [hr now] at hcmd
    obtain ⟨q, rfl, hq⟩ := Outcome.bind_eq_ok.mp hcmd
    cases q with
    | plain c =>
      cases hq
      cases cmd with
      | set c => exact absurd rfl (hplain _ rfl c)
      | expire c =>
        have hzero : present values c.key → c.duration = 0 := fun hp => by
          by_contra hne
          exact hdates ⟨hne, hp⟩
        exact ⟨.expire c, hr t, fun hd => hdates hd, fun _ _ => ht, update_expire_eq hzero hnow ht⟩
      | _ => exact absurd trivial hnone
    | set key value duration =>
      obtain ⟨expiresAt, hexp, hset⟩ := Outcome.bind_eq_ok.mp hq
      cases hset
      cases duration with
      | none =>
        cases hexp
        exact absurd rfl hnone
      | some d =>
        obtain ⟨d', hadd, hd'⟩ := Outcome.bind_eq_ok.mp hexp
        cases hd'
        have hdeadline := Instant.add_eq_some (Outcome.ofChecked_eq_ok.mp hadd)
        have hzero : d = 0 := by
          by_contra hne
          refine hdates ⟨d', rfl, ?_⟩
          rw [hdeadline]
          exact Nat.lt_add_of_pos_right (Nat.pos_of_ne_zero hne)
        rw [hzero, Nat.add_zero] at hdeadline
        rw [hdeadline]
        exact meansAt_set_zero (hr t) (by rw [hzero]) ht values

end Command

end InMemoryCache
