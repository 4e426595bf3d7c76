-- SUMMARY: Replies of the hash and set commands count changes of cardinality, whatever the arguments repeat.
import InMemoryCache.Lib.Domain
import InMemoryCache.Store.Refinement

/-!
# Hashes and sets

A key that is absent or expired stands for the empty hash and for the empty set. On a key
that stands for a hash, `HSET` replies the number of fields by which the domain grows,
`HDEL` the number by which it shrinks, and `HGET` and `HGETALL` show what is left; `SADD`,
`SREM`, `SISMEMBER` and `SMEMBERS` do the same on sets.
-/

namespace InMemoryCache

open Lib Leased

/-! ## Loops -/

/-- The loop of `hset` writes every field and counts the new ones. -/
theorem insertFields_spec (map : Table Bytes Bytes) (fields : List (Bytes × Bytes)) :
    (insertFields map fields).2.1 = map.insertAll fields ∧
      (insertFields map fields).2.2 = ((fields.map Prod.fst).toFinset \ map.dom).card := by
  induction fields generalizing map with
  | nil => exact ⟨rfl, by simp [insertFields]⟩
  | cons kv fields ih =>
    obtain ⟨field, value⟩ := kv
    obtain ⟨htable, hcount⟩ := ih (map.insert field value)
    rw [Table.dom_insert] at hcount
    rw [insertFields, Table.insertAll, List.map_cons, card_cons_sdiff, ← hcount]
    dsimp only
    split
    · rename_i old hold
      rw [if_pos (Table.mem_dom.mpr ⟨old, hold⟩)]
      exact ⟨htable, rfl⟩
    · rename_i hnone
      rw [if_neg (Table.get?_eq_none_iff.mp hnone)]
      exact ⟨htable, rfl⟩

/-- The loop of `hdel` erases every field and counts those it finds. -/
theorem removeFields_spec (map : Table Bytes Bytes) (fields : List Bytes) :
    (removeFields map fields).2.1 = map.eraseAll fields ∧
      (removeFields map fields).2.2 = (fields.toFinset ∩ map.dom).card := by
  induction fields generalizing map with
  | nil => exact ⟨rfl, by simp [removeFields]⟩
  | cons f fields ih =>
    obtain ⟨htable, hcount⟩ := ih (map.erase f)
    rw [Table.dom_erase] at hcount
    rw [removeFields, Table.eraseAll, card_cons_inter, ← hcount]
    split
    · rename_i val hval
      rw [if_pos (Table.mem_dom.mpr ⟨val, hval⟩)]
      exact ⟨htable, rfl⟩
    · rename_i hnone
      have hsame : map.erase f = map := by
        have hwrite := map.overwrite_get? f
        rwa [hnone] at hwrite
      rw [if_neg (Table.get?_eq_none_iff.mp hnone), hsame]
      rw [hsame] at htable
      exact ⟨htable, rfl⟩

/-- The loop of `sadd` adds every member and counts the new ones. -/
theorem insertMembers_spec (set : Table Bytes Unit) (members : List Bytes) :
    (insertMembers set members).2.1 = set.insertAll (members.map fun m => (m, ())) ∧
      (insertMembers set members).2.2 = (members.toFinset \ set.dom).card := by
  induction members generalizing set with
  | nil => exact ⟨rfl, by simp [insertMembers]⟩
  | cons m members ih =>
    obtain ⟨htable, hcount⟩ := ih (set.insert m ())
    rw [Table.dom_insert] at hcount
    rw [insertMembers, List.map_cons, Table.insertAll, card_cons_sdiff, ← hcount]
    split
    · rename_i hcontains
      -- a member that is there is stored again
      obtain ⟨_, hget⟩ := Option.isSome_iff_exists.mp hcontains
      have hsame : set.insert m () = set := by
        have hwrite := set.overwrite_get? m
        rwa [hget] at hwrite
      rw [if_pos (Table.mem_dom_iff_contains.mpr hcontains), hsame]
      rw [hsame] at htable
      exact ⟨htable, rfl⟩
    · rename_i hcontains
      rw [if_neg (mt Table.mem_dom_iff_contains.mp hcontains)]
      exact ⟨htable, rfl⟩

/-- The loop of `srem` erases every member and counts those it finds. -/
theorem removeMembers_spec (set : Table Bytes Unit) (members : List Bytes) :
    (removeMembers set members).2.1 = set.eraseAll members ∧
      (removeMembers set members).2.2 = (members.toFinset ∩ set.dom).card := by
  induction members generalizing set with
  | nil => exact ⟨rfl, by simp [removeMembers]⟩
  | cons m members ih =>
    obtain ⟨htable, hcount⟩ := ih (set.erase m)
    rw [Table.dom_erase] at hcount
    rw [removeMembers, Table.eraseAll, card_cons_inter, ← hcount]
    split
    · rename_i hcontains
      rw [if_pos (Table.mem_dom_iff_contains.mpr hcontains)]
      exact ⟨htable, rfl⟩
    · rename_i hcontains
      have hsame : set.erase m = set := by
        have hwrite := set.overwrite_get? m
        rwa [Option.not_isSome_iff_eq_none.mp hcontains] at hwrite
      rw [if_neg (mt Table.mem_dom_iff_contains.mp hcontains), hsame]
      rw [hsame] at htable
      exact ⟨htable, rfl⟩

/-! ## Meanings -/

/-- The table that an item stands for, the empty one where there is no item; `mk` makes the
value of a table. -/
inductive StandsFor (mk : Table Bytes β → DataType) : Option Item → Table Bytes β → Prop where
  | absent : StandsFor mk none ∅
  | live (t : Table Bytes β) (deadline : Option Instant) :
    StandsFor mk (some { value := mk t, deadline := deadline }) t

namespace StandsFor

variable {mk : Table Bytes β → DataType} {s : Option Item} {t t' : Table Bytes β}

theorem inspect {absent : ρ} {read : DataType → Option (ρ × Bool)} {r : Table Bytes β → ρ × Bool}
    (h : StandsFor mk s t) (hread : ∀ t, read (mk t) = some (r t)) (habsent : (r ∅).1 = absent) :
    (Item.inspect absent read s).1 = .ok (r t).1 := by
  cases h with
  | absent => rw [Item.inspect, habsent]
  | live t d => rw [Item.inspect, hread]

/-- A deadline that has not passed is no obstacle to another value. -/
theorem visible_of_lasts {v v' : DataType} {deadline : Option Instant} {now : Instant}
    (h : visible now (some (⟨v, deadline⟩ : Item)) = some ⟨v, deadline⟩) :
    visible now (some (⟨v', deadline⟩ : Item)) = some ⟨v', deadline⟩ := by
  have hlive : Leased.live now (⟨v, deadline⟩ : Item) = true := by
    cases hlive : Leased.live now (⟨v, deadline⟩ : Item) with
    | true => rfl
    | false =>
      rw [visible_of_not_live hlive] at h
      cases h
  exact visible_of_live hlive

/-- A command that writes into a collection. -/
theorem create {edit : DataType → Option (Edit Nat)} {e : Edit Nat} {later : Instant}
    (h : StandsFor mk s t) (hedit : edit (mk t) = some e) (hdata : e.data = mk t')
    (hlasts : visible later s = s) :
    (Item.create (mk ∅) edit s).1 = .ok e.result ∧
      StandsFor mk (visible later (Item.create (mk ∅) edit s).2) t' := by
  cases h with
  | absent =>
    rw [Item.create]
    dsimp only [Option.getD_none]
    rw [hedit]
    dsimp only
    rw [hdata]
    exact ⟨rfl, .live t' none⟩
  | live t d =>
    rw [Item.create]
    dsimp only [Option.getD_some]
    rw [hedit]
    dsimp only
    rw [hdata, visible_of_lasts hlasts]
    refine ⟨rfl, ?_⟩
    exact .live t' d

/-- A command that takes out of a collection. -/
theorem shrink {edit : DataType → Option (Edit Nat)} {e : Edit Nat} {later : Instant}
    (h : StandsFor mk s t) (hedit : edit (mk t) = some e) (hdata : e.data = mk t')
    (hempty : (mk t').isEmpty = t'.isEmpty) (hnone : t = ∅ → e.result = 0 ∧ t' = ∅)
    (hlasts : visible later s = s) :
    (Item.shrink 0 edit s).1 = .ok e.result ∧
      StandsFor mk (visible later (Item.shrink 0 edit s).2) t' := by
  cases h with
  | absent =>
    obtain ⟨hresult, rfl⟩ := hnone rfl
    rw [hresult]
    exact ⟨rfl, .absent⟩
  | live t d =>
    rw [Item.shrink]
    dsimp only
    rw [hedit]
    dsimp only
    rw [hdata, hempty]
    refine ⟨rfl, ?_⟩
    split
    · rename_i hgone
      rw [Table.isEmpty_iff.mp hgone]
      exact .absent
    · rw [visible_of_lasts hlasts]
      exact .live t' d

end StandsFor

namespace Db

variable {cfg : Config}

/-- The key stands for a hash at a time. -/
def HoldsHash (db : Db cfg) (now : Instant) (key : Bytes) (map : Table Bytes Bytes) : Prop :=
  StandsFor .hash (db.item now key) map

/-- The key stands for a set at a time. -/
def HoldsSet (db : Db cfg) (now : Instant) (key : Bytes) (set : Table Bytes Unit) : Prop :=
  StandsFor .set (db.item now key) set

/-- `HGET` answers the value of each field, and `HGETALL` lists each field once with the value
that `HGET` answers. -/
def ShowsHash (db : Db cfg) (key : Bytes) (env : Env) (map : Table Bytes Bytes) : Prop :=
  (∀ field, (db.hget key field env).1 = .ok (map.get? field)) ∧
    ∃ pairs, (db.hgetall key env).1 = .ok pairs ∧ (pairs.map Prod.fst).Nodup ∧
      ∀ field value, (field, value) ∈ pairs ↔ (db.hget key field env).1 = .ok (some value)

/-- `SISMEMBER` answers true for the members, and `SMEMBERS` lists once each what
`SISMEMBER` answers true for. -/
def ShowsSet (db : Db cfg) (key : Bytes) (env : Env) (members : Finset Bytes) : Prop :=
  (∀ member, (db.sismember key member env).1 = .ok (decide (member ∈ members))) ∧
    ∃ listed, (db.smembers key env).1 = .ok listed ∧ listed.Nodup ∧
      ∀ member, member ∈ listed ↔ (db.sismember key member env).1 = .ok true

section

variable {db : Db cfg} {key : Bytes} {env later : Env} {now : Instant}

/-- A locked operation answers and leaves visible what it means, then and later. -/
theorem locked_agrees {f : Cell → ρ × Cell} {y : ρ × Option Item}
    (h : Agree now (f (db.cellAt (getShardIndex cfg key) key)) y) {now' : Instant}
    (hle : now ≤ now') :
    (db.locked key f).1 = y.1 ∧ (db.locked key f).2.item now' key = visible now' y.2 := by
  refine ⟨h.result, ?_⟩
  rw [item_locked, if_pos rfl]
  exact visible_congr hle h.state

theorem showsHash {map : Table Bytes Bytes} (h : db.HoldsHash env.clock.now key map) :
    db.ShowsHash key env map := by
  have hget : ∀ field, (db.hget key field env).1 = .ok (map.get? field) := fun field =>
    Cell.agree_lookup.result.trans
      (h.inspect (r := fun t => (t.get? field, (t.get? field).isSome)) (fun _ => rfl) rfl)
  have hgetall : (db.hgetall key env).1 = .ok map.entries :=
    Cell.agree_lookup.result.trans (h.inspect (r := fun t => (t.entries, true)) (fun _ => rfl) rfl)
  refine ⟨hget, map.entries, hgetall, map.nodup, fun field value => ?_⟩
  rw [hget, Except.ok.injEq, Table.get?_eq_some]

theorem showsSet {set : Table Bytes Unit} (h : db.HoldsSet env.clock.now key set) :
    db.ShowsSet key env set.dom := by
  have hmember : ∀ member, (db.sismember key member env).1 = .ok (set.contains member) :=
    fun member => Cell.agree_lookup.result.trans
      (h.inspect (r := fun t => (t.contains member, t.contains member)) (fun _ => rfl) rfl)
  have hmembers : (db.smembers key env).1 = .ok set.keys :=
    Cell.agree_lookup.result.trans (h.inspect (r := fun t => (t.keys, true)) (fun _ => rfl) rfl)
  refine ⟨fun member => ?_, set.keys, hmembers, set.nodup_keys, fun member => ?_⟩
  · rw [hmember, Bool.decide_congr Table.mem_dom_iff_contains, Bool.decide_eq_true]
  · rw [hmember, Except.ok.injEq, ← Table.mem_dom_iff_contains, Table.dom, List.mem_toFinset]

/-- What stands under the key is the same later: no deadline passes in between. -/
def Lasts (db : Db cfg) (key : Bytes) (env later : Env) : Prop :=
  env.clock.now ≤ later.clock.now ∧ db.item later.clock.now key = db.item env.clock.now key

theorem Lasts.visible (h : db.Lasts key env later) :
    Leased.visible later.clock.now (db.item env.clock.now key) = db.item env.clock.now key :=
  (visible_visible h.1 _).trans h.2

/-- A writing command replies what it counted, and the key stands for the table it left. -/
theorem upsert_holds {mk : Table Bytes β → DataType} {edit : DataType → Option (Edit Nat)}
    {e : Edit Nat} {t t' : Table Bytes β} (h : StandsFor mk (db.item env.clock.now key) t)
    (hedit : edit (mk t) = some e) (hdata : e.data = mk t') (hlasts : db.Lasts key env later) :
    (db.locked key (Cell.upsert (mk ∅) edit key env.clock)).1 = .ok e.result ∧
      StandsFor mk ((db.locked key (Cell.upsert (mk ∅) edit key env.clock)).2.item
        later.clock.now key) t' := by
  have hagree : Agree env.clock.now
      (Cell.upsert (mk ∅) edit key env.clock (db.cellAt (getShardIndex cfg key) key))
      (Item.create (mk ∅) edit (db.item env.clock.now key)) := Cell.agree_upsert
  obtain ⟨hresult, hitem⟩ := locked_agrees hagree hlasts.1
  obtain ⟨hreply, hstands⟩ := h.create hedit hdata hlasts.visible
  rw [hitem]
  exact ⟨hresult.trans hreply, hstands⟩

/-- So does a command that takes out. -/
theorem removal_holds {mk : Table Bytes β → DataType} {edit : DataType → Option (Edit Nat)}
    {e : Edit Nat} {t t' : Table Bytes β} (h : StandsFor mk (db.item env.clock.now key) t)
    (hedit : edit (mk t) = some e) (hdata : e.data = mk t')
    (hempty : (mk t').isEmpty = t'.isEmpty) (hnone : t = ∅ → e.result = 0 ∧ t' = ∅)
    (hlasts : db.Lasts key env later) :
    (db.locked key (Cell.removal edit key env.clock)).1 = .ok e.result ∧
      StandsFor mk ((db.locked key (Cell.removal edit key env.clock)).2.item
        later.clock.now key) t' := by
  have hagree : Agree env.clock.now
      (Cell.removal edit key env.clock (db.cellAt (getShardIndex cfg key) key))
      (Item.shrink 0 edit (db.item env.clock.now key)) := Cell.agree_removal
  obtain ⟨hresult, hitem⟩ := locked_agrees hagree hlasts.1
  obtain ⟨hreply, hstands⟩ := h.shrink hedit hdata hempty hnone hlasts.visible
  rw [hitem]
  exact ⟨hresult.trans hreply, hstands⟩

theorem hset_holds {map : Table Bytes Bytes} (h : db.HoldsHash env.clock.now key map)
    (fields : List (Bytes × Bytes)) (hlasts : db.Lasts key env later) :
    (db.hset key fields env).1 = .ok ((fields.map Prod.fst).toFinset \ map.dom).card ∧
      (db.hset key fields env).2.HoldsHash later.clock.now key (map.insertAll fields) := by
  obtain ⟨htable, hcount⟩ := insertFields_spec map fields
  have hedit : editHset fields (.hash map) = some
      { data := .hash (insertFields map fields).2.1, deltas := (insertFields map fields).1,
        result := (insertFields map fields).2.2 } := rfl
  rw [← hcount]
  exact upsert_holds h hedit (congrArg DataType.hash htable) hlasts

theorem sadd_holds {set : Table Bytes Unit} (h : db.HoldsSet env.clock.now key set)
    (members : List Bytes) (hlasts : db.Lasts key env later) :
    (db.sadd key members env).1 = .ok (members.toFinset \ set.dom).card ∧
      (db.sadd key members env).2.HoldsSet later.clock.now key
        (set.insertAll (members.map fun m => (m, ()))) := by
  obtain ⟨htable, hcount⟩ := insertMembers_spec set members
  have hedit : editSadd members (.set set) = some
      { data := .set (insertMembers set members).2.1, deltas := (insertMembers set members).1,
        result := (insertMembers set members).2.2 } := rfl
  rw [← hcount]
  exact upsert_holds h hedit (congrArg DataType.set htable) hlasts

theorem hdel_holds {map : Table Bytes Bytes} (h : db.HoldsHash env.clock.now key map)
    (fields : List Bytes) (hlasts : db.Lasts key env later) :
    (db.hdel key fields env).1 = .ok (fields.toFinset ∩ map.dom).card ∧
      (db.hdel key fields env).2.HoldsHash later.clock.now key (map.eraseAll fields) := by
  obtain ⟨htable, hcount⟩ := removeFields_spec map fields
  have hedit : editHdel fields (.hash map) = some
      { data := .hash (removeFields map fields).2.1, deltas := (removeFields map fields).1,
        result := (removeFields map fields).2.2 } := rfl
  rw [← hcount]
  refine removal_holds h hedit (congrArg DataType.hash htable) rfl ?_ hlasts
  rintro rfl
  exact ⟨hcount.trans (by simp), Table.eraseAll_empty _⟩

theorem srem_holds {set : Table Bytes Unit} (h : db.HoldsSet env.clock.now key set)
    (members : List Bytes) (hlasts : db.Lasts key env later) :
    (db.srem key members env).1 = .ok (members.toFinset ∩ set.dom).card ∧
      (db.srem key members env).2.HoldsSet later.clock.now key (set.eraseAll members) := by
  obtain ⟨htable, hcount⟩ := removeMembers_spec set members
  have hedit : editSrem members (.set set) = some
      { data := .set (removeMembers set members).2.1, deltas := (removeMembers set members).1,
        result := (removeMembers set members).2.2 } := rfl
  rw [← hcount]
  refine removal_holds h hedit (congrArg DataType.set htable) rfl ?_ hlasts
  rintro rfl
  exact ⟨hcount.trans (by simp), Table.eraseAll_empty _⟩

theorem lasts_self : db.Lasts key env env := ⟨Nat.le_refl _, rfl⟩

end

/-! ## Replies and contents -/

/-- The hash commands on a key that stands for `map`, and the lookups after them. -/
structure HashExact (db : Db cfg) (key : Bytes) (env : Env) (map : Table Bytes Bytes) : Prop where
  lookups : db.ShowsHash key env map
  hset : ∀ fields, (db.hset key fields env).1 = .ok ((fields.map Prod.fst).toFinset \ map.dom).card
  hset_after : ∀ fields later, db.Lasts key env later → ∃ map',
    (db.hset key fields env).2.ShowsHash key later map' ∧
      map'.dom = map.dom ∪ (fields.map Prod.fst).toFinset ∧
      ∀ field, map'.get? field = (Table.find field fields.reverse).or (map.get? field)
  hdel : ∀ fields, (db.hdel key fields env).1 = .ok (fields.toFinset ∩ map.dom).card
  hdel_after : ∀ fields later, db.Lasts key env later → ∃ map',
    (db.hdel key fields env).2.ShowsHash key later map' ∧ map'.dom = map.dom \ fields.toFinset ∧
      ∀ field, field ∉ fields → map'.get? field = map.get? field

/-- The set commands on a key that stands for the set of `members`, and the lookups after
them. -/
structure SetExact (db : Db cfg) (key : Bytes) (env : Env) (members : Finset Bytes) : Prop where
  lookups : db.ShowsSet key env members
  sadd : ∀ added, (db.sadd key added env).1 = .ok (added.toFinset \ members).card
  sadd_after : ∀ added later, db.Lasts key env later →
    (db.sadd key added env).2.ShowsSet key later (members ∪ added.toFinset)
  srem : ∀ removed, (db.srem key removed env).1 = .ok (removed.toFinset ∩ members).card
  srem_after : ∀ removed later, db.Lasts key env later →
    (db.srem key removed env).2.ShowsSet key later (members \ removed.toFinset)

theorem hashExact {db : Db cfg} {key : Bytes} {env : Env} {map : Table Bytes Bytes}
    (h : db.HoldsHash env.clock.now key map) : db.HashExact key env map where
  lookups := showsHash h
  hset fields := (hset_holds h fields lasts_self).1
  hset_after fields _ hlasts := ⟨map.insertAll fields,
    showsHash (hset_holds h fields hlasts).2, map.dom_insertAll fields, map.get?_insertAll fields⟩
  hdel fields := (hdel_holds h fields lasts_self).1
  hdel_after fields _ hlasts := ⟨map.eraseAll fields,
    showsHash (hdel_holds h fields hlasts).2, map.dom_eraseAll fields,
    fun field hnot => (map.get?_eraseAll fields field).trans (if_neg hnot)⟩

theorem setExact {db : Db cfg} {key : Bytes} {env : Env} {set : Table Bytes Unit}
    (h : db.HoldsSet env.clock.now key set) : db.SetExact key env set.dom where
  lookups := showsSet h
  sadd added := (sadd_holds h added lasts_self).1
  sadd_after added later hlasts := by
    have hmembers : (added.map fun m => (m, ())).map Prod.fst = added := by
      rw [List.map_map]
      exact List.map_id added
    have hshows := showsSet (sadd_holds h added hlasts).2
    rwa [Table.dom_insertAll, hmembers] at hshows
  srem removed := (srem_holds h removed lasts_self).1
  srem_after removed later hlasts := by
    rw [← Table.dom_eraseAll]
    exact showsSet (srem_holds h removed hlasts).2

/-- Replies of the hash and set commands are changes of cardinality, and what the lookups show
afterwards is the union or the difference. -/
theorem collections_exact (db : Db cfg) (key : Bytes) (env : Env) :
    (∀ map, db.HoldsHash env.clock.now key map → db.HashExact key env map) ∧
      ∀ set, db.HoldsSet env.clock.now key set → db.SetExact key env set.dom :=
  ⟨fun _ h => hashExact h, fun _ h => setExact h⟩

/-- `HSET` of an old field and, twice, a new one. -/
theorem collections_exact_repeated :
    let env : Env := { clock := { now := 0, millis := 0 }, draws := fun _ _ => (0, 0) }
    let db := (empty : Db (.standard 0 List.length)).run
      [(env, .on [107] (.hset [([97], [49]), ([98], [50])]))]
    (db.hset [107] [([98], [51]), ([99], [52]), ([99], [53])] env).1 = .ok 1 := by
  intro env db
  have hholds : db.HoldsHash env.clock.now [107]
      ((∅ : Table Bytes Bytes).insertAll [([97], [49]), ([98], [50])]) := .live _ none
  rw [((collections_exact db [107] env).1 _ hholds).hset]
  decide

end Db

end InMemoryCache
