-- SUMMARY: SCAN as the source's loops, what one call covers, and what an iteration returns.
import InMemoryCache.Lib.Paging
import InMemoryCache.Store.Invariant

/-!
# SCAN

The cursor of `scan` packs a shard index and an offset into the shard's iteration order.
A call reads one page of entries (`Lib.page`) and reports those of them that are not
expired and match. Iterated over a store that does not change, the calls report each key
once; over one that changes, a key is missed if an operation between two calls brings it
to an offset that the cursor has passed.
-/

namespace InMemoryCache

open Lib

namespace Db

variable {cfg : Config}

-- ---------------------------------------------------------------------------
-- The loops of the source
-- ---------------------------------------------------------------------------

/-- The variables of `scan`. -/
structure ScanState where
  shardIdx : Nat
  offset : Nat
  scanned : Nat
  matched : List Bytes

/-- The inner loop, over the entries from the offset on. -/
def visitEntries (now : Instant) (pattern : Option Bytes) (typeFilter : Option String)
    (targetScan : Nat) : List (Bytes × CacheEntry) → ScanState → ScanState
  | [], s => s
  | (key, entry) :: entries, s =>
    let s := { s with offset := s.offset + 1, scanned := s.scanned + 1 }
    if entry.isExpired now then
      if s.scanned ≥ targetScan then s
      else visitEntries now pattern typeFilter targetScan entries s
    else if typeFilter.any fun tf => !typeMatches entry.data tf then
      if s.scanned ≥ targetScan then s
      else visitEntries now pattern typeFilter targetScan entries s
    else
      let isMatch := pattern.elim true fun p => p == [byte '*'] || globMatch p key
      let s := if isMatch then { s with matched := s.matched ++ [key] } else s
      if s.scanned ≥ targetScan then s
      else visitEntries now pattern typeFilter targetScan entries s

/-- The outer loop. Every turn ends the loop or goes on to the next shard, so there are at
most as many as shards are left. -/
def visitShards (db : Db cfg) (now : Instant) (pattern : Option Bytes)
    (typeFilter : Option String) (targetScan : Nat) : Nat → ScanState → ScanState
  | 0, s => s
  | fuel + 1, s =>
    if h : s.shardIdx < cfg.numShards ∧ s.scanned < targetScan then
      let entries := (db.shards ⟨s.shardIdx, h.1⟩).entries
      let total := entries.length
      if s.offset ≥ total then
        visitShards db now pattern typeFilter targetScan fuel
          { s with shardIdx := s.shardIdx + 1, offset := 0 }
      else
        let s := visitEntries now pattern typeFilter targetScan (entries.drop s.offset) s
        if s.offset ≥ total then
          visitShards db now pattern typeFilter targetScan fuel
            { s with shardIdx := s.shardIdx + 1, offset := 0 }
        else visitShards db now pattern typeFilter targetScan fuel s
    else s

/-- `scan`, loop by loop. -/
def scanLoops (db : Db cfg) (cursor : Nat) (pattern : Option Bytes) (count : Nat)
    (typeFilter : Option String) (now : Instant) : Nat × List Bytes :=
  let shardIdx := cursor >>> 32
  let offset := cursor &&& 0xFFFFFFFF
  if shardIdx ≥ cfg.numShards then (0, [])
  else
    let targetScan := if count = 0 then 10 else count
    let s := visitShards db now pattern typeFilter targetScan (cfg.numShards - shardIdx)
      { shardIdx := shardIdx, offset := offset, scanned := 0, matched := [] }
    let nextCursor :=
      if s.shardIdx ≥ cfg.numShards then 0 else (s.shardIdx <<< 32) % U64.size ||| s.offset
    (nextCursor, s.matched)

section Loops

variable {now : Instant} {pattern : Option Bytes} {typeFilter : Option String} {targetScan : Nat}

/-- The keys that a call reports of the entries it visits. -/
def reported (now : Instant) (pattern : Option Bytes) (typeFilter : Option String)
    (entries : List (Bytes × CacheEntry)) : List Bytes :=
  (entries.filter fun e => scanMatches now pattern typeFilter e.1 e.2).map Prod.fst

theorem reported_append (l l' : List (Bytes × CacheEntry)) :
    reported now pattern typeFilter (l ++ l') =
      reported now pattern typeFilter l ++ reported now pattern typeFilter l' := by
  rw [reported, List.filter_append, List.map_append]
  rfl

/-- The three ways through the body of the inner loop report what `scanMatches` says. -/
theorem visitEntries_cons (key : Bytes) (entry : CacheEntry) (entries : List (Bytes × CacheEntry))
    (s : ScanState) :
    visitEntries now pattern typeFilter targetScan ((key, entry) :: entries) s =
      let s := { s with
        offset := s.offset + 1, scanned := s.scanned + 1,
        matched := s.matched ++ reported now pattern typeFilter [(key, entry)] }
      if s.scanned ≥ targetScan then s
      else visitEntries now pattern typeFilter targetScan entries s := by
  have hreported : reported now pattern typeFilter [(key, entry)] =
      if scanMatches now pattern typeFilter key entry then [key] else [] := by
    rw [reported, List.filter_cons]
    split <;> rfl
  have htype : (typeFilter.any fun tf => !typeMatches entry.data tf) =
      !typeFilter.all (typeMatches entry.data) := by cases typeFilter <;> rfl
  have hpattern : (pattern.elim true fun p => p == [byte '*'] || globMatch p key) =
      pattern.all (matchesPattern · key) := by cases pattern <;> rfl
  rw [visitEntries, hreported, scanMatches, htype, hpattern]
  cases entry.isExpired now with
  | true => simp
  | false =>
    cases typeFilter.all (typeMatches entry.data) with
    | false => simp
    | true => cases pattern.all (matchesPattern · key) <;> simp

theorem visitEntries_eq (entries : List (Bytes × CacheEntry)) {s : ScanState}
    (h : s.scanned < targetScan) :
    visitEntries now pattern typeFilter targetScan entries s =
      let seen := entries.take (targetScan - s.scanned)
      { s with
        offset := s.offset + seen.length, scanned := s.scanned + seen.length,
        matched := s.matched ++ reported now pattern typeFilter seen } := by
  induction entries generalizing s with
  | nil =>
    rw [visitEntries, List.take_nil]
    dsimp only [List.length_nil]
    rw [reported, List.filter_nil, List.map_nil, List.append_nil]
    rfl
  | cons e entries ih =>
    obtain ⟨key, entry⟩ := e
    obtain ⟨k, hk⟩ : ∃ k, targetScan - s.scanned = k + 1 := ⟨targetScan - s.scanned - 1, by omega⟩
    rw [visitEntries_cons, hk, List.take_succ_cons]
    have hcons : reported now pattern typeFilter ((key, entry) :: entries.take k) =
        reported now pattern typeFilter [(key, entry)] ++
          reported now pattern typeFilter (entries.take k) :=
      reported_append [(key, entry)] _
    dsimp only
    rw [hcons, List.length_cons]
    split
    · have hzero : k = 0 := by omega
      rw [hzero, List.take_zero, List.length_nil, ← List.append_assoc]
      exact congrArg _ (List.append_nil _).symm
    · have hrest : targetScan - (s.scanned + 1) = k := by omega
      rw [ih (by dsimp only; omega)]
      dsimp only
      rw [hrest, Nat.add_comm (entries.take k).length 1, Nat.add_assoc, Nat.add_assoc,
        List.append_assoc]

/-- With the budget used up the loop stops where it is. -/
theorem visitShards_of_full (db : Db cfg) {fuel : Nat} {s : ScanState}
    (hfull : ¬ s.scanned < targetScan) :
    visitShards db now pattern typeFilter targetScan fuel s = s := by
  cases fuel with
  | zero => rfl
  | succ fuel => rw [visitShards, dif_neg fun hloop => hfull hloop.2]

/-- The loops visit the page that `scanShards` describes. -/
theorem visitShards_eq (db : Db cfg) {fuel : Nat} {s : ScanState}
    (hscanned : s.scanned ≤ targetScan) :
    let s' := visitShards db now pattern typeFilter targetScan fuel s
    let found := db.scanShards (scanMatches now pattern typeFilter) fuel s.shardIdx s.offset
      (targetScan - s.scanned)
    (s'.shardIdx, s'.offset) = found.1 ∧ s'.matched = s.matched ++ found.2 := by
  induction fuel generalizing s with
  | zero => exact ⟨rfl, (List.append_nil _).symm⟩
  | succ fuel ih =>
    rw [visitShards, scanShards]
    by_cases h : s.shardIdx < cfg.numShards ∧ s.scanned < targetScan
    · have hbudget : s.shardIdx < cfg.numShards ∧ 0 < targetScan - s.scanned :=
        ⟨h.1, Nat.sub_pos_of_lt h.2⟩
      rw [dif_pos h, dif_pos hbudget]
      dsimp only
      generalize (db.shards ⟨s.shardIdx, h.1⟩).entries = entries
      by_cases hpast : s.offset ≥ entries.length
      · -- nothing of this shard is left
        have hnil : (entries.drop s.offset).take (targetScan - s.scanned) = [] := by
          rw [List.drop_of_length_le hpast, List.take_nil]
        rw [if_pos hpast, hnil, if_pos (by exact hpast)]
        exact ih hscanned
      · rw [if_neg hpast, visitEntries_eq _ h.2]
        dsimp only
        have hlength : ((entries.drop s.offset).take (targetScan - s.scanned)).length ≤
            targetScan - s.scanned := List.length_take_le _ _
        generalize hseen : (entries.drop s.offset).take (targetScan - s.scanned) = seen at hlength
        split
        · have hrest := @ih
            { s with
              shardIdx := s.shardIdx + 1, offset := 0, scanned := s.scanned + seen.length,
              matched := s.matched ++ reported now pattern typeFilter seen }
            (by dsimp only; omega)
          dsimp only at hrest
          rw [← Nat.sub_sub] at hrest
          refine ⟨hrest.1, hrest.2.trans ?_⟩
          rw [List.append_assoc]
          rfl
        · rename_i hwithin
          -- the page ended inside the shard, and the loop with it
          have hfull : ¬ s.scanned + seen.length < targetScan := by
            have hlen := congrArg List.length hseen
            rw [List.length_take, List.length_drop] at hlen
            omega
          rw [visitShards_of_full db hfull]
          exact ⟨rfl, rfl⟩
    · have hbudget : ¬ (s.shardIdx < cfg.numShards ∧ 0 < targetScan - s.scanned) :=
        fun hb => h ⟨hb.1, Nat.lt_of_sub_pos hb.2⟩
      rw [dif_neg h, dif_neg hbudget]
      exact ⟨rfl, (List.append_nil _).symm⟩

/-- `scan` is what its loops compute. -/
theorem scan_eq_scanLoops (db : Db cfg) (cursor : Nat) (pattern : Option Bytes) (count : Nat)
    (typeFilter : Option String) (now : Instant) :
    db.scan cursor pattern count typeFilter now =
      db.scanLoops cursor pattern count typeFilter now := by
  rw [scan, scanLoops]
  dsimp only
  split
  · rfl
  · have hmask : cursor &&& 0xFFFFFFFF = cursor % 2 ^ 32 := Nat.and_two_pow_sub_one_eq_mod cursor 32
    obtain ⟨hstop, hmatched⟩ := @visitShards_eq cfg now pattern typeFilter
      (if count = 0 then 10 else count) db (cfg.numShards - cursor >>> 32)
      { shardIdx := cursor >>> 32, offset := cursor % 2 ^ 32, scanned := 0, matched := [] }
      (Nat.zero_le _)
    dsimp only at hstop hmatched
    rw [Nat.sub_zero] at hstop hmatched
    rw [hmask, hmatched, List.nil_append, ← congrArg Prod.fst hstop, ← congrArg Prod.snd hstop]

end Loops

-- ---------------------------------------------------------------------------
-- One call reads one page
-- ---------------------------------------------------------------------------

/-- The entries of the shards, in their iteration order. -/
def rows (db : Db cfg) (i : Fin cfg.numShards) : List (Bytes × CacheEntry) := (db.shards i).entries

/-- `COUNT`, where 0 stands for 10. -/
def target (count : Nat) : Nat := if count = 0 then 10 else count

theorem target_pos (count : Nat) : 0 < target count := by
  rw [target]
  split <;> omega

/-- The cursor that stands for a place. -/
def encode (p : Place) : Nat := (p.row <<< 32) % U64.size ||| p.offset

/-- The cursor a call that ends at a place returns. -/
def cursorAt (cfg : Config) (p : Place) : Nat := if p.row ≥ cfg.numShards then 0 else encode p

/-- A place whose numbers fit the two halves of a cursor. -/
def Packed (p : Place) : Prop := p.row < 2 ^ 32 ∧ p.offset < 2 ^ 32

theorem encode_eq {p : Place} (h : Packed p) : encode p = p.row * 2 ^ 32 + p.offset := by
  have hsize : p.row <<< 32 < U64.size := by
    have hrow := h.1
    rw [Nat.shiftLeft_eq, U64.size]
    omega
  rw [encode, Nat.mod_eq_of_lt hsize, ← Nat.shiftLeft_add_eq_or_of_lt h.2, Nat.shiftLeft_eq]

theorem encode_shiftRight {p : Place} (h : Packed p) : encode p >>> 32 = p.row := by
  have hoffset := h.2
  rw [encode_eq h, Nat.shiftRight_eq_div_pow]
  omega

theorem encode_mod {p : Place} (h : Packed p) : encode p % 2 ^ 32 = p.offset := by
  have hoffset := h.2
  rw [encode_eq h]
  omega

theorem scanShards_eq_page (db : Db cfg) (select : Bytes → CacheEntry → Bool) (left : Nat)
    (p : Place) (budget : Nat) :
    db.scanShards select left p.row p.offset budget =
      (((page db.rows left p budget).1.row, (page db.rows left p budget).1.offset),
        ((page db.rows left p budget).2.filter fun e => select e.1 e.2).map Prod.fst) := by
  induction left generalizing p budget with
  | zero => rfl
  | succ left ih =>
    rw [scanShards, page]
    split
    · dsimp only [rows]
      have hrest := ih { row := p.row + 1, offset := 0 }
      dsimp only at hrest
      split
      · rw [hrest, List.filter_append, List.map_append]
      · rfl
    · rfl

/-- A call with a cursor reads the page from the place it stands for. -/
theorem scan_encode (db : Db cfg) {p : Place} (h : Packed p) (hrow : p.row < cfg.numShards)
    (pattern : Option Bytes) (count : Nat) (typeFilter : Option String) (now : Instant) :
    db.scan (encode p) pattern count typeFilter now =
      (cursorAt cfg (nextPage db.rows p (target count)).1,
        reported now pattern typeFilter (nextPage db.rows p (target count)).2) := by
  rw [scan, encode_shiftRight h, encode_mod h]
  dsimp only
  rw [if_neg (Nat.not_le.mpr hrow), scanShards_eq_page]
  rfl

theorem reported_flatMap_rows (db : Db cfg) (pattern : Option Bytes) (typeFilter : Option String)
    (now : Instant) :
    reported now pattern typeFilter ((List.finRange cfg.numShards).flatMap db.rows) =
      db.listed (scanMatches now pattern typeFilter) := by
  rw [reported, List.filter_flatMap, List.map_flatMap]
  rfl

/-- No call returns a key twice, whatever cursor it has. -/
theorem nodup_scan {db : Db cfg} (h : db.Placed) (cursor : Nat) (pattern : Option Bytes)
    (count : Nat) (typeFilter : Option String) (now : Instant) :
    (db.scan cursor pattern count typeFilter now).2.Nodup := by
  rw [scan]
  dsimp only
  split
  · exact List.nodup_nil
  · have hsublist := page_sublist db.rows (p := { row := cursor >>> 32, offset := cursor % 2 ^ 32 })
      le_rfl (if count = 0 then 10 else count)
    have hpage := db.scanShards_eq_page (scanMatches now pattern typeFilter)
      (cfg.numShards - cursor >>> 32) { row := cursor >>> 32, offset := cursor % 2 ^ 32 }
      (if count = 0 then 10 else count)
    dsimp only at hpage
    rw [hpage]
    have hnodup := nodup_listed h (scanMatches now pattern typeFilter)
    rw [← reported_flatMap_rows] at hnodup
    exact hnodup.sublist ((hsublist.filter _).map Prod.fst)

-- ---------------------------------------------------------------------------
-- Iterations
-- ---------------------------------------------------------------------------

section Iteration

variable (dbs : Nat → Db cfg) (pattern : Option Bytes) (typeFilter : Option String)
  (counts : Nat → Nat) (nows : Nat → Instant)

/-- The cursor of call `m`: 0, and then what the call before returned. Call `m` finds the store
`dbs m` and the clock at `nows m`, and has the count `counts m`. -/
def scanCursor : Nat → Nat
  | 0 => 0
  | m + 1 => ((dbs m).scan (scanCursor m) pattern (counts m) typeFilter (nows m)).1

/-- The keys that call `m` returns. -/
def scanFound (m : Nat) : List Bytes :=
  ((dbs m).scan (scanCursor dbs pattern typeFilter counts nows m) pattern (counts m) typeFilter
    (nows m)).2

/-- Call `m` is the last of the iteration: it returns 0, and no call before did. -/
def Ends (m : Nat) : Prop :=
  scanCursor dbs pattern typeFilter counts nows (m + 1) = 0 ∧
    ∀ k < m, scanCursor dbs pattern typeFilter counts nows (k + 1) ≠ 0

/-- The place where call `m` starts. -/
def placeAt (m : Nat) : Place := places (fun m => (dbs m).rows) (fun m => target (counts m)) m

variable {dbs pattern typeFilter counts nows}

theorem packed_placeAt (hshards : cfg.numShards ≤ 2 ^ 32) {m : Nat}
    (hsize : ∀ k < m, ∀ i, ((dbs k).shards i).size < 2 ^ 32)
    (hrow : ∀ k ≤ m, (placeAt dbs counts k).row < cfg.numShards) :
    Packed (placeAt dbs counts m) := by
  refine ⟨Nat.lt_of_lt_of_le (hrow m le_rfl) hshards, ?_⟩
  cases m with
  | zero => exact Nat.two_pow_pos 32
  | succ m =>
    have hbefore := ((page_progress (dbs m).rows le_rfl (target (counts m))).2
      (hrow m (Nat.le_succ m)) (target_pos (counts m))).1
    have hfits := fits_page (dbs m).rows _ hbefore (hrow (m + 1) le_rfl)
    exact Nat.lt_of_le_of_lt hfits (hsize m (Nat.lt_succ_self m) _)

/-- As long as no call got past the shards, the cursors stand for the places of the pages. -/
theorem scanCursor_eq (hshards : cfg.numShards ≤ 2 ^ 32) {m : Nat}
    (hsize : ∀ k < m, ∀ i, ((dbs k).shards i).size < 2 ^ 32)
    (hrow : ∀ k < m, (placeAt dbs counts k).row < cfg.numShards) :
    scanCursor dbs pattern typeFilter counts nows m = cursorAt cfg (placeAt dbs counts m) := by
  induction m with
  | zero =>
    have hstart : ¬ (placeAt dbs counts 0).row ≥ cfg.numShards := Nat.not_le.mpr cfg.numShards_pos
    have hpacked : Packed (placeAt dbs counts 0) := ⟨Nat.two_pow_pos 32, Nat.two_pow_pos 32⟩
    have hplace : placeAt dbs counts 0 = { row := 0, offset := 0 } := rfl
    rw [cursorAt, if_neg hstart, encode_eq hpacked, hplace, Nat.zero_mul]
    rfl
  | succ m ih =>
    have hm := ih (fun k hk => hsize k (Nat.lt_succ_of_lt hk)) fun k hk =>
      hrow k (Nat.lt_succ_of_lt hk)
    have hlt := hrow m (Nat.lt_succ_self m)
    have hpacked := packed_placeAt hshards (fun k hk => hsize k (Nat.lt_succ_of_lt hk))
      fun k hk => hrow k (Nat.lt_succ_of_le hk)
    rw [cursorAt, if_neg (Nat.not_le.mpr hlt)] at hm
    rw [scanCursor, hm, scan_encode (dbs m) hpacked hlt]
    rfl

theorem scanFound_eq (hshards : cfg.numShards ≤ 2 ^ 32) {m : Nat}
    (hsize : ∀ k < m, ∀ i, ((dbs k).shards i).size < 2 ^ 32)
    (hrow : ∀ k ≤ m, (placeAt dbs counts k).row < cfg.numShards) :
    scanFound dbs pattern typeFilter counts nows m =
      reported (nows m) pattern typeFilter
        (pageAt (fun m => (dbs m).rows) (fun m => target (counts m)) m) := by
  have hcursor := @scanCursor_eq cfg dbs pattern typeFilter counts nows hshards m hsize
    fun k hk => hrow k (Nat.le_of_lt hk)
  rw [cursorAt, if_neg (Nat.not_le.mpr (hrow m le_rfl))] at hcursor
  rw [scanFound, hcursor, scan_encode (dbs m) (packed_placeAt hshards hsize hrow) (hrow m le_rfl)]
  rfl

/-- The cursor is 0 again exactly when a call got past the shards. -/
theorem scanCursor_eq_zero_iff (hshards : cfg.numShards ≤ 2 ^ 32) {m : Nat}
    (hsize : ∀ k ≤ m, ∀ i, ((dbs k).shards i).size < 2 ^ 32)
    (hrow : ∀ k ≤ m, (placeAt dbs counts k).row < cfg.numShards) :
    scanCursor dbs pattern typeFilter counts nows (m + 1) = 0 ↔
      cfg.numShards ≤ (placeAt dbs counts (m + 1)).row := by
  rw [scanCursor_eq hshards (fun k hk => hsize k (Nat.le_of_lt_succ hk))
    fun k hk => hrow k (Nat.le_of_lt_succ hk), cursorAt]
  split
  · rename_i hge
    exact iff_of_true rfl hge
  · rename_i hlt
    refine iff_of_false (fun hzero => ?_) hlt
    have hpacked := packed_placeAt hshards (fun k hk => hsize k (Nat.le_of_lt_succ hk))
      (m := m + 1) fun k hk => by
        rcases Nat.lt_or_eq_of_le hk with hk | rfl
        · exact hrow k (Nat.le_of_lt_succ hk)
        · exact Nat.not_le.mp hlt
    rw [encode_eq hpacked] at hzero
    -- a call goes forward, so it cannot stop at the start
    have hbefore : (placeAt dbs counts m).Before (placeAt dbs counts (m + 1)) :=
      ((page_progress (dbs m).rows le_rfl (target (counts m))).2
        (hrow m le_rfl) (target_pos (counts m))).1
    rcases hbefore with hlater | ⟨-, hlater⟩
    · omega
    · omega

/-- All calls up to the last one start within the shards, and the last one gets past them. -/
theorem ends_iff (hshards : cfg.numShards ≤ 2 ^ 32) {m : Nat}
    (hsize : ∀ k ≤ m, ∀ i, ((dbs k).shards i).size < 2 ^ 32) :
    Ends dbs pattern typeFilter counts nows m ↔
      cfg.numShards ≤ (placeAt dbs counts (m + 1)).row ∧
        ∀ k ≤ m, (placeAt dbs counts k).row < cfg.numShards := by
  have hzero (k : Nat) (hk : k ≤ m) (hrow : ∀ j ≤ k, (placeAt dbs counts j).row < cfg.numShards) :
      scanCursor dbs pattern typeFilter counts nows (k + 1) = 0 ↔
        cfg.numShards ≤ (placeAt dbs counts (k + 1)).row :=
    scanCursor_eq_zero_iff hshards (fun j hj => hsize j (hj.trans hk)) hrow
  constructor
  · rintro ⟨hend, hgoing⟩
    have hrow : ∀ k ≤ m, ∀ j ≤ k, (placeAt dbs counts j).row < cfg.numShards := by
      intro k hk
      induction k with
      | zero =>
        intro j hj
        rw [Nat.le_zero.mp hj]
        exact cfg.numShards_pos
      | succ k ih =>
        intro j hj
        have hrest := ih (Nat.le_of_succ_le hk)
        rcases Nat.lt_or_eq_of_le hj with hj | rfl
        · exact hrest j (Nat.le_of_lt_succ hj)
        · exact Nat.not_le.mp fun hge =>
            hgoing k hk ((hzero k (Nat.le_of_succ_le hk) hrest).mpr hge)
    exact ⟨(hzero m le_rfl (hrow m le_rfl)).mp hend, hrow m le_rfl⟩
  · rintro ⟨hend, hrow⟩
    refine ⟨(hzero m le_rfl hrow).mpr hend, fun k hk hk0 => ?_⟩
    have hge := (hzero k hk.le fun j hj => hrow j (hj.trans hk.le)).mp hk0
    exact absurd hge (Nat.not_le.mpr (hrow (k + 1) hk))

-- ---------------------------------------------------------------------------
-- A store that does not change
-- ---------------------------------------------------------------------------

/-- What is expired stays so during the iteration, and what is not. -/
def SameExpiry (db : Db cfg) (now now' : Instant) : Prop :=
  ∀ i key entry, (db.shards i).get? key = some entry → entry.isExpired now = entry.isExpired now'

theorem reported_congr {db : Db cfg} {now now' : Instant} (h : db.SameExpiry now now')
    {l : List (Bytes × CacheEntry)} (hl : ∀ e ∈ l, ∃ i, e ∈ db.rows i) :
    reported now pattern typeFilter l = reported now' pattern typeFilter l := by
  rw [reported, reported]
  refine congrArg _ (List.filter_congr fun e he => ?_)
  obtain ⟨i, hi⟩ := hl e he
  rw [scanMatches, scanMatches, h i e.1 e.2 (Table.get?_eq_some.mpr hi)]

/-- An iteration over a store that does not change ends, and its calls put together list every
entry that matches. -/
theorem exists_ends (db : Db cfg) (hshards : cfg.numShards ≤ 2 ^ 32)
    (hsize : ∀ i, (db.shards i).size < 2 ^ 32) {now : Instant}
    (hexpiry : ∀ m, db.SameExpiry (nows m) now) :
    ∃ last, Ends (fun _ => db) pattern typeFilter counts nows last ∧
      (List.range (last + 1)).flatMap (scanFound (fun _ => db) pattern typeFilter counts nows) =
        db.listed (scanMatches now pattern typeFilter) := by
  have hexists := exists_places_ge db.rows (fun m => target (counts m)) fun m => target_pos (counts m)
  have hfirst := Nat.find_spec hexists
  have hleast : ∀ k < Nat.find hexists, (placeAt (fun _ => db) counts k).row < cfg.numShards :=
    fun k hk => Nat.not_le.mp (Nat.find_min hexists hk)
  cases hfind : Nat.find hexists with
  | zero =>
    rw [hfind] at hfirst
    exact absurd hfirst (Nat.not_le.mpr cfg.numShards_pos)
  | succ last =>
    rw [hfind] at hfirst hleast
    have hrow : ∀ k ≤ last, (placeAt (fun _ => db) counts k).row < cfg.numShards :=
      fun k hk => hleast k (Nat.lt_succ_of_le hk)
    refine ⟨last, (ends_iff hshards fun _ _ => hsize).mpr ⟨hfirst, hrow⟩, ?_⟩
    have hpages := flatMap_pageAt db.rows (fun m => target (counts m)) (last + 1)
    rw [rest_of_ge db.rows hfirst, List.append_nil] at hpages
    rw [← reported_flatMap_rows, ← hpages, reported, List.filter_flatMap, List.map_flatMap]
    refine List.flatMap_congr fun m hm => ?_
    have hm : m ≤ last := Nat.le_of_lt_succ (List.mem_range.mp hm)
    rw [scanFound_eq hshards (fun _ _ => hsize) fun k hk => hrow k (hk.trans hm)]
    refine reported_congr (hexpiry m) fun e he => ?_
    have hmem : e ∈ (List.finRange cfg.numShards).flatMap db.rows := by
      rw [← hpages, List.mem_flatMap]
      exact ⟨m, List.mem_range.mpr (Nat.lt_succ_of_le hm), he⟩
    obtain ⟨i, -, hi⟩ := List.mem_flatMap.mp hmem
    exact ⟨i, hi⟩

theorem listed_eq_keys (db : Db cfg) (pattern : Option Bytes) (now : Instant) :
    db.listed (scanMatches now pattern none) = db.keys (pattern.getD [byte '*']) now := by
  have hselect : scanMatches now pattern none = fun key entry =>
      !entry.isExpired now && matchesPattern (pattern.getD [byte '*']) key := by
    funext key entry
    cases pattern with
    | none => simp [scanMatches, matchesPattern]
    | some p => simp [scanMatches]
  rw [hselect]
  rfl

end Iteration

/-- Over a store that does not change, `SCAN` returns to cursor 0, after reporting every
unexpired key that matches once and nothing else; without `TYPE` these are the keys of
`KEYS`. -/
theorem scan_exact (ops : List (Env × Op)) (hshards : cfg.numShards ≤ 2 ^ 32)
    (hsize : ∀ i, (((empty : Db cfg).run ops).shards i).size < 2 ^ 32) (pattern : Option Bytes)
    (typeFilter : Option String) (counts : Nat → Nat) (nows : Nat → Instant) (now : Instant)
    (hexpiry : ∀ m, ((empty : Db cfg).run ops).SameExpiry (nows m) now) :
    ∃ last, Ends (fun _ => (empty : Db cfg).run ops) pattern typeFilter counts nows last ∧
      let found := (List.range (last + 1)).flatMap
        (scanFound (fun _ => (empty : Db cfg).run ops) pattern typeFilter counts nows)
      found.Nodup ∧
        (∀ key, key ∈ found ↔ ∃ entry, ((empty : Db cfg).run ops).entry key = some entry ∧
          scanMatches now pattern typeFilter key entry = true) ∧
        (typeFilter = none →
          found.Perm (((empty : Db cfg).run ops).keys (pattern.getD [byte '*']) now)) := by
  obtain ⟨last, hends, hfound⟩ := @exists_ends cfg pattern typeFilter counts nows
    ((empty : Db cfg).run ops) hshards hsize now hexpiry
  refine ⟨last, hends, ?_⟩
  dsimp only
  rw [hfound]
  refine ⟨nodup_listed (placed_run ops) _, mem_listed (placed_run ops) _, ?_⟩
  rintro rfl
  rw [listed_eq_keys]

/-- A clock that stands still, and no random draws. -/
def stillEnv : Env := { clock := { now := 0, millis := 0 }, draws := fun _ _ => (0, 0) }

/-- A string, a list, a string that is expired at time 10 and a key of two bytes. -/
def fourKeys : List (Env × Op) :=
  [(stillEnv, .on [97] (.set [118] none)), (stillEnv, .on [98] (.rpush [[119]])),
    (stillEnv, .on [99] (.set [118] (some 5))), (stillEnv, .on [97, 98] (.set [118] none))]

/-- They are scanned at that time for keys of one byte, with counts 0 and 1. -/
theorem scan_exact_fourKeys :
    let db : Db (.standard 0 List.length) := empty.run fourKeys
    ∃ last, Ends (fun _ => db) (some [63]) none (fun m => m % 2) (fun _ => 10) last ∧
      ((List.range (last + 1)).flatMap
        (scanFound (fun _ => db) (some [63]) none (fun m => m % 2) fun _ => 10)).Perm
          [[97], [98]] := by
  intro db
  have hkeys : db.keys [63] 10 = [[97], [98]] := by decide +kernel
  obtain ⟨last, hends, -, -, hperm⟩ := @scan_exact (.standard 0 List.length) fourKeys
    (by decide) (by decide +kernel) (some [63]) none (fun m => m % 2) (fun _ => 10) 10
    fun _ _ _ _ _ => rfl
  exact ⟨last, hends, hkeys ▸ hperm rfl⟩

-- ---------------------------------------------------------------------------
-- A store that does change
-- ---------------------------------------------------------------------------

/-- The offset of a key in the iteration order of its shard. -/
def position (db : Db cfg) (key : Bytes) : Nat :=
  (db.shards (getShardIndex cfg key)).position key

/-- Between two calls, a key of the cursor's shard that the cursor has not passed is not
brought to an offset that it has passed. -/
def StaysAhead (before after : Db cfg) (cursor : Nat) (key : Bytes) : Prop :=
  cursor >>> 32 = getShardIndex cfg key → cursor % 2 ^ 32 ≤ before.position key →
    cursor % 2 ^ 32 ≤ after.position key

theorem rows_position {db : Db cfg} {key : Bytes} {entry : CacheEntry}
    (h : db.entry key = some entry) :
    (db.rows (getShardIndex cfg key))[db.position key]? = some (key, entry) :=
  Table.getElem?_position h

/-- An iteration over a store that changes returns every key that is there and matches
throughout, unless a change brings it behind the cursor. -/
theorem scan_complete (dbs : Nat → Db cfg) (pattern : Option Bytes) (typeFilter : Option String)
    (counts : Nat → Nat) (nows : Nat → Instant) (last : Nat) (key : Bytes)
    (hends : Ends dbs pattern typeFilter counts nows last) (hshards : cfg.numShards ≤ 2 ^ 32)
    (hsize : ∀ m ≤ last, ∀ i, ((dbs m).shards i).size < 2 ^ 32)
    (hpresent : ∀ m ≤ last, ∃ entry, (dbs m).entry key = some entry ∧
      scanMatches (nows m) pattern typeFilter key entry = true)
    (hstays : ∀ m < last, StaysAhead (dbs m) (dbs (m + 1))
      (scanCursor dbs pattern typeFilter counts nows (m + 1)) key) :
    ∃ m ≤ last, key ∈ scanFound dbs pattern typeFilter counts nows m := by
  obtain ⟨hend, hrow⟩ := (ends_iff hshards hsize).mp hends
  have hentry (m : Nat) (hm : m < last + 1) :
      ((dbs m).rows (getShardIndex cfg key))[(dbs m).position key]? =
        some (key, ((dbs m).entry key).getD (.new (.string []) none 0)) := by
    obtain ⟨entry, hget, -⟩ := hpresent m (Nat.le_of_lt_succ hm)
    rw [rows_position hget, hget]
    rfl
  obtain ⟨m, hm, hmem⟩ := exists_mem_pageAt (fun m => (dbs m).rows) (fun m => target (counts m))
    hentry hend fun m hm hrow' hle => by
      have hm : m < last := Nat.lt_of_succ_lt_succ hm
      have hcursor := @scanCursor_eq cfg dbs pattern typeFilter counts nows hshards (m + 1)
        (fun k hk => hsize k (by omega)) fun k hk => hrow k (by omega)
      have hlt := hrow (m + 1) hm
      have hpacked := packed_placeAt hshards (m := m + 1) (fun k hk => hsize k (by omega))
        fun k hk => hrow k (by omega)
      have hstay := hstays m hm
      rw [cursorAt, if_neg (Nat.not_le.mpr hlt)] at hcursor
      rw [StaysAhead, hcursor, encode_shiftRight hpacked, encode_mod hpacked] at hstay
      exact hstay hrow' hle
  have hm : m ≤ last := Nat.le_of_lt_succ hm
  refine ⟨m, hm, ?_⟩
  obtain ⟨entry, hget, hmatch⟩ := hpresent m hm
  rw [hget, Option.getD_some] at hmem
  rw [scanFound_eq hshards (fun k hk => hsize k (by omega)) fun k hk => hrow k (hk.trans hm),
    reported, List.mem_map]
  exact ⟨(key, entry), List.mem_filter.mpr ⟨hmem, hmatch⟩, rfl⟩

/-- The keys `a` and `b`, which share a shard. -/
def twoKeys : Db (.standard 0 List.length) :=
  empty.run [(stillEnv, .on [97] (.set [118] none)), (stillEnv, .on [98] (.set [118] none))]

/-- `b` is returned, although `c` comes into its shard after the first call. -/
theorem scan_complete_growing :
    let dbs : Nat → Db (.standard 0 List.length) := fun m =>
      if m = 0 then twoKeys else twoKeys.run [(stillEnv, .on [99] (.set [118] none))]
    ∃ m ≤ 3, [98] ∈ scanFound dbs none none (fun _ => 1) (fun _ => 0) m := by
  intro dbs
  refine scan_complete dbs none none (fun _ => 1) (fun _ => 0) 3 [98]
    ⟨by decide +kernel, by decide +kernel⟩ (by decide) (by decide +kernel) (fun m hm => ?_)
    fun m hm => ?_
  · refine ⟨{ data := .string [118], expiresAt := none, lastAccessed := 0 }, ?_, rfl⟩
    revert m
    decide +kernel
  · rw [StaysAhead]
    revert m
    decide +kernel

/-! ## Keys that an iteration misses -/

def oneShard : Config where
  numShards := 1
  numShards_pos := Nat.one_pos
  maxmemory := 0
  hash _ := 0

theorem oneShard_pos : 0 < oneShard.numShards := Nat.one_pos

/-- The `j`th key, one of each length. -/
def nthKey (j : Nat) : Bytes := List.replicate j 0

theorem nthKey_injective {j k : Nat} (h : nthKey j = nthKey k) : j = k := by
  have hlength := congrArg List.length h
  rwa [nthKey, nthKey, List.length_replicate, List.length_replicate] at hlength

/-- The store after `n` keys were set. -/
def crowd (n : Nat) : Db oneShard :=
  empty.run ((List.range n).map fun j =>
    (stillEnv, .on (nthKey j) (.set [] none)))

theorem shards_crowd_succ (n : Nat) (i : Fin oneShard.numShards) :
    (crowd (n + 1)).shards i =
      ((crowd n).shards i).insert (nthKey n) (.new (.string []) none 0) := by
  have hi : i = getShardIndex oneShard (nthKey n) := Subsingleton.elim (α := Fin 1) _ _
  rw [crowd, List.range_succ, List.map_append, run_append, ← crowd]
  show ((crowd n).putCellAt (getShardIndex oneShard (nthKey n)) (nthKey n)
    (Cell.set (nthKey n) [] none { now := 0, millis := 0 } ((crowd n).cellAt _ (nthKey n)))).shards i = _
  rw [shards_putCellAt, if_pos hi, ← hi, Cell.set]
  cases ((crowd n).cellAt i (nthKey n)).slot <;> rfl

theorem keys_crowd (n : Nat) (i : Fin oneShard.numShards) :
    ((crowd n).shards i).keys = (List.range n).map nthKey ∧
      ∀ e ∈ (crowd n).rows i, e.2.expiresAt = none := by
  induction n with
  | zero => exact ⟨rfl, nofun⟩
  | succ n ih =>
    have hfresh : nthKey n ∉ ((crowd n).shards i).keys := by
      rw [ih.1, List.mem_map]
      rintro ⟨j, hj, heq⟩
      exact absurd (nthKey_injective heq) (Nat.ne_of_lt (List.mem_range.mp hj))
    constructor
    · rw [shards_crowd_succ, List.range_succ, List.map_append, ← ih.1]
      exact (Table.map_fst_assign _).trans (if_neg hfresh)
    · intro e he
      rw [rows, shards_crowd_succ] at he
      have hget := Table.get?_eq_some.mpr he
      rw [Table.get?_insert] at hget
      split at hget
      · rw [Option.some.injEq] at hget
        rw [← hget]
        rfl
      · exact ih.2 e (Table.get?_eq_some.mp hget)

theorem entry_crowd {n j : Nat} (h : j < n) :
    ∃ entry, (crowd n).entry (nthKey j) = some entry ∧
      scanMatches 0 none none (nthKey j) entry = true := by
  obtain ⟨hkeys, hdeadline⟩ := keys_crowd n (getShardIndex oneShard (nthKey j))
  have hmem : nthKey j ∈ ((crowd n).shards (getShardIndex oneShard (nthKey j))).keys := by
    rw [hkeys]
    exact List.mem_map_of_mem (List.mem_range.mpr h)
  obtain ⟨entry, hentry⟩ := Table.mem_keys.mp hmem
  have hexp : entry.expiresAt = none := hdeadline (nthKey j, entry) (Table.get?_eq_some.mp hentry)
  refine ⟨entry, hentry, ?_⟩
  rw [scanMatches, CacheEntry.isExpired, hexp]
  rfl

/-- A page that stops one entry before the end of the shard. -/
theorem nextPage_crowd {b : Nat} (hb : 0 < b) :
    nextPage (crowd (b + 1)).rows { row := 0, offset := 0 } b =
      ({ row := 0, offset := b }, ((crowd (b + 1)).rows ⟨0, oneShard_pos⟩).take b) := by
  have hlength : ((crowd (b + 1)).rows ⟨0, oneShard_pos⟩).length = b + 1 := by
    have hkeys := congrArg List.length (keys_crowd (b + 1) ⟨0, oneShard_pos⟩).1
    rwa [Table.keys, List.length_map, List.length_map, List.length_range] at hkeys
  have htake : (((crowd (b + 1)).rows ⟨0, oneShard_pos⟩).take b).length = b := by
    rw [List.length_take, hlength, Nat.min_eq_left (Nat.le_succ b)]
  have hrow : 0 < oneShard.numShards ∧ 0 < b := ⟨oneShard_pos, hb⟩
  show page (crowd (b + 1)).rows 1 { row := 0, offset := 0 } b = _
  rw [page, dif_pos hrow]
  dsimp only
  rw [List.drop_zero, htake, hlength, Nat.zero_add, if_neg (Nat.not_succ_le_self b)]

/-- A shard with more entries than an offset can count: the cursor runs over into the shard
index, and the iteration ends before the last key. -/
theorem scan_crowd_skips {b : Nat} (hb : 2 ^ 32 ≤ b) :
    Ends (fun _ => crowd (b + 1)) none none (fun _ => b) (fun _ => 0) 1 ∧
      ∀ m ≤ 1, nthKey b ∉ scanFound (fun _ => crowd (b + 1)) none none (fun _ => b) (fun _ => 0) m := by
  have hpos : 0 < b := Nat.lt_of_lt_of_le (Nat.two_pow_pos 32) hb
  have hstart : Packed { row := 0, offset := 0 } := ⟨Nat.two_pow_pos 32, Nat.two_pow_pos 32⟩
  have htarget : target b = b := if_neg (Nat.ne_of_gt hpos)
  have hzero : encode { row := 0, offset := 0 } = 0 := by
    rw [encode_eq hstart, Nat.zero_mul, Nat.zero_add]
  have hover : cursorAt oneShard { row := 0, offset := b } = b := by
    rw [cursorAt, if_neg (Nat.not_le.mpr oneShard_pos), encode, Nat.zero_shiftLeft, Nat.zero_mod,
      Nat.zero_or]
  have hfirst : (crowd (b + 1)).scan 0 none b none 0 =
      (b, reported 0 none none (((crowd (b + 1)).rows ⟨0, oneShard_pos⟩).take b)) := by
    have hscan := scan_encode (crowd (b + 1)) hstart oneShard_pos none b none 0
    rw [hzero, htarget, nextPage_crowd hpos] at hscan
    rw [hscan, hover]
  have hsecond : (crowd (b + 1)).scan b none b none 0 = (0, []) := by
    have hshift : b >>> 32 ≥ oneShard.numShards := by
      rw [Nat.shiftRight_eq_div_pow]
      exact Nat.div_pos hb (Nat.two_pow_pos 32)
    rw [scan]
    dsimp only
    rw [if_pos hshift]
  have hcursor : scanCursor (fun _ => crowd (b + 1)) none none (fun _ => b) (fun _ => 0) 1 = b := by
    rw [scanCursor, scanCursor, hfirst]
  refine ⟨⟨?_, fun k hk => ?_⟩, fun m hm => ?_⟩
  · rw [scanCursor, hcursor, hsecond]
  · rw [Nat.lt_one_iff.mp hk, hcursor]
    exact Nat.ne_of_gt hpos
  · rcases Nat.le_one_iff_eq_zero_or_eq_one.mp hm with rfl | rfl
    · rw [scanFound, scanCursor, hfirst]
      intro hmem
      -- the keys reported are shorter
      obtain ⟨e, he, hkey⟩ := List.mem_map.mp hmem
      have hseen : nthKey b ∈ (((crowd (b + 1)).shards ⟨0, oneShard_pos⟩).keys).take b := by
        rw [Table.keys, ← List.map_take, ← hkey]
        exact List.mem_map_of_mem (List.mem_filter.mp he).1
      rw [(keys_crowd (b + 1) ⟨0, oneShard_pos⟩).1, ← List.map_take, List.take_range,
        Nat.min_eq_left (Nat.le_succ b)] at hseen
      obtain ⟨j, hj, heq⟩ := List.mem_map.mp hseen
      exact absurd (nthKey_injective heq) (Nat.ne_of_lt (List.mem_range.mp hj))
    · rw [scanFound, hcursor, hsecond]
      exact List.not_mem_nil

/-- A key is there and matches during the whole iteration, and no call returns it. -/
def Misses (dbs : Nat → Db cfg) (counts : Nat → Nat) (last : Nat) (key : Bytes) : Prop :=
  Ends dbs none none counts (fun _ => 0) last ∧
    (∀ m ≤ last, ∃ entry, (dbs m).entry key = some entry ∧
      scanMatches 0 none none key entry = true) ∧
    ∀ m ≤ last, key ∉ scanFound dbs none none counts (fun _ => 0) m

/-- `b` is missed when `a` is deleted after the first call; and the last key is missed in a
shard with more than `2^32` entries. -/
theorem scan_misses :
    Misses (fun m => if m = 0 then twoKeys else (twoKeys.del [[97]]).2) (fun _ => 1) 1 [98] ∧
      Misses (fun _ => crowd (2 ^ 32 + 1)) (fun _ => 2 ^ 32) 1 (nthKey (2 ^ 32)) := by
  constructor
  · refine ⟨⟨by decide +kernel, by decide +kernel⟩, fun m hm => ?_, by decide +kernel⟩
    refine ⟨{ data := .string [118], expiresAt := none, lastAccessed := 0 }, ?_, rfl⟩
    revert m
    decide +kernel
  · obtain ⟨hends, hmisses⟩ := scan_crowd_skips (le_refl (2 ^ 32))
    exact ⟨hends, fun _ _ => entry_crowd (Nat.lt_succ_self _), hmisses⟩

end Db

end InMemoryCache
