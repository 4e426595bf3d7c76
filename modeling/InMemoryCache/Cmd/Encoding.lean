-- SUMMARY: A request parses alike however its arguments are encoded, but for a COUNT of zero.
import InMemoryCache.Cmd.Replies

/-!
# Encodings

A client may send a string as a bulk or as a simple string, and a number as an integer
frame or as its decimal text. `Reencoded` relates two argument lists that differ in
nothing else. Every parser answers them alike (`reencoded_parsers`) except that of
`SCAN`, whose `COUNT` refuses the integer frame 0 and takes the text "0".
-/

namespace InMemoryCache

open Lib Outcome Cmd

-- ---------------------------------------------------------------------------
-- Re-encoded requests
-- ---------------------------------------------------------------------------

namespace Frame

/-- The text of a string frame. -/
def text? : Frame → Option String
  | .bulk b => fromUtf8 b
  | .simple s => some s
  | _ => none

/-- The frame is the name `name`, in either letter case. -/
def Names [Unicode] (f : Frame) (name : String) : Prop :=
  ∃ s, f.text? = some s ∧ toUppercase s = name

/-- The same frame, or a simple string made a bulk string. -/
inductive SameText : Frame → Frame → Prop
  | refl (f : Frame) : SameText f f
  | bulk (s : String) : SameText (.simple s) (.bulk (asBytes s))

/-- The same text, or an integer frame made its decimal text. -/
inductive SameNumber : Frame → Frame → Prop
  | text {f g : Frame} : SameText f g → SameNumber f g
  | decimal (i : Int64) : SameNumber (.integer i) (.bulk (asBytes (i64ToString i)))

end Frame

open InMemoryCache.Frame

/-- What a parser reads an argument as. -/
inductive Kind where
  | text
  | number
  deriving DecidableEq, Repr

def Kind.Same : Kind → Frame → Frame → Prop
  | .text => SameText
  | .number => SameNumber

/-- Two argument lists that differ in encoding only. The kinds say where numbers stand;
past their end every argument is a string. -/
inductive Reencoded : List Kind → List Frame → List Frame → Prop
  | nil {kinds : List Kind} : Reencoded kinds [] []
  | cons {kinds : List Kind} {f g : Frame} {args args' : List Frame} :
    (kinds.headD .text).Same f g → Reencoded kinds.tail args args' →
      Reencoded kinds (f :: args) (g :: args')

/-- The kinds of option arguments, which come in pairs; a value is a number after one of
the names `numeric`. -/
def optionKinds [Unicode] (numeric : List String) : List Frame → List Kind
  | f :: _ :: args =>
    let value : Kind := match f.text? with
      | some s => if toUppercase s ∈ numeric then .number else .text
      | none => .text
    .text :: value :: optionKinds numeric args
  | _ => []

/-- The kinds of a command's arguments, by its upper-case name. -/
def argKinds [Unicode] (name : String) (args : List Frame) : List Kind :=
  if name = "SET" then .text :: .text :: optionKinds ["EX", "PX"] args.tail.tail
  else if name = "SCAN" then .number :: optionKinds ["COUNT"] args.tail
  else if name = "EXPIRE" ∨ name = "PEXPIRE" then [.text, .number]
  else if name = "LRANGE" then [.text, .number, .number]
  else []

/-- The kinds of the arguments after the name frame `f`. -/
def requestKinds [Unicode] (f : Frame) (args : List Frame) : List Kind :=
  match f.text? with
  | some s => argKinds (toUppercase s) args
  | none => []

theorem Reencoded.tail {kinds : List Kind} {args args' : List Frame}
    (h : Reencoded kinds args args') : Reencoded kinds.tail args.tail args'.tail := by
  cases h with
  | nil => exact .nil
  | cons hsame h => exact h

/-- A pair of option arguments: where the name is text, it tells the kind of the value. -/
theorem Reencoded.pair [Unicode] {numeric : List String} {f g : Frame} {args args' : List Frame}
    (h : Reencoded (optionKinds numeric (f :: g :: args)) (f :: g :: args) args') :
    ∃ f' g' rest, args' = f' :: g' :: rest ∧ SameText f f' ∧ ∀ s, f.text? = some s →
      Kind.Same (if toUppercase s ∈ numeric then .number else .text) g g' ∧
        Reencoded (optionKinds numeric args) args rest := by
  cases h with
  | @cons _ _ f' _ _ hname h =>
    cases h with
    | @cons _ _ g' _ rest hvalue h =>
      refine ⟨f', g', rest, rfl, hname, fun s hs => ?_⟩
      rw [optionKinds, hs] at hvalue h
      exact ⟨hvalue, h⟩

-- ---------------------------------------------------------------------------
-- The argument readers
-- ---------------------------------------------------------------------------

namespace Cmd

variable {err invalid other cmd : String} {f g : Frame}

theorem bytesArg_same (h : SameText f g) : bytesArg err (some f) = bytesArg err (some g) := by
  cases h <;> rfl

theorem textArg_same (h : SameText f g) : textArg invalid other f = textArg invalid other g := by
  cases h with
  | refl => rfl
  | bulk s => simp only [textArg, fromUtf8_asBytes]

/-- Reading a number as text undoes its encoding. -/
theorem numberArg_same (h : SameNumber f g) :
    numberArg invalid other f = numberArg invalid other g := by
  cases h with
  | text h =>
    cases h with
    | refl => rfl
    | bulk s => simp only [numberArg, textArg, fromUtf8_asBytes]
  | decimal i => simp only [numberArg, textArg, fromUtf8_asBytes]

theorem textArg_eq_ok {s : String} : textArg invalid other f = .ok s ↔ f.text? = some s := by
  cases f with
  | bulk b =>
    simp only [textArg, text?]
    cases fromUtf8 b <;> simp
  | simple t => simp [textArg, text?]
  | _ => simp [textArg, text?]

variable {kinds : List Kind} {args args' : List Frame}

theorem bytesArg_head (h : Reencoded kinds args args') (hk : kinds.headD .text = .text) :
    bytesArg err args.head? = bytesArg err args'.head? := by
  cases h with
  | nil => rfl
  | cons hsame h =>
    rw [hk] at hsame
    exact bytesArg_same hsame

theorem noMoreArgs_same (h : Reencoded kinds args args') :
    noMoreArgs err args = noMoreArgs err args' := by
  cases h <;> rfl

theorem bytesArgs_same (h : Reencoded [] args args') :
    bytesArgs err args = bytesArgs err args' := by
  generalize hkinds : ([] : List Kind) = kinds at h
  induction h with
  | nil => rfl
  | cons hsame h ih =>
    subst hkinds
    rw [bytesArgs, bytesArgs, bytesArg_same hsame, ih rfl]

theorem messageArg_same (hsame : SameText f g) (h : Reencoded kinds args args') :
    messageArg cmd f args = messageArg cmd g args' := by
  cases hsame with
  | refl => cases f <;> simp only [messageArg, noMoreArgs_same h]
  | bulk s => simp only [messageArg, noMoreArgs_same h]

theorem keyOnly_same (h : Reencoded [] args args') : keyOnly err args = keyOnly err args' := by
  rw [keyOnly, keyOnly, bytesArg_head h rfl, noMoreArgs_same h.tail]

theorem keyAndArg_same (h : Reencoded [] args args') :
    keyAndArg err args = keyAndArg err args' := by
  rw [keyAndArg, keyAndArg, bytesArg_head h rfl, bytesArg_head h.tail rfl,
    noMoreArgs_same h.tail.tail]

theorem keyAndArgs_same (h : Reencoded [] args args') :
    keyAndArgs err args = keyAndArgs err args' := by
  rw [keyAndArgs, keyAndArgs, bytesArg_head h rfl, bytesArgs_same h.tail]

-- ---------------------------------------------------------------------------
-- The parsers
-- ---------------------------------------------------------------------------

theorem ping_same (h : Reencoded [] args args') :
    Ping.parseFrames args = Ping.parseFrames args' := by
  cases h with
  | nil => rfl
  | cons hsame h => rw [Ping.parseFrames, Ping.parseFrames, messageArg_same hsame h]

theorem echo_same (h : Reencoded [] args args') :
    Echo.parseFrames args = Echo.parseFrames args' := by
  cases h with
  | nil => rfl
  | cons hsame h => rw [Echo.parseFrames, Echo.parseFrames, messageArg_same hsame h]

theorem setOptions_same [Unicode] {duration : Option Duration}
    (h : Reencoded (optionKinds ["EX", "PX"] args) args args') :
    setOptions duration args = setOptions duration args' := by
  induction duration, args using setOptions.induct generalizing args' with
  | case1 duration =>
    cases h
    rfl
  | case2 duration f =>
    cases h with
    | cons hsame h =>
      cases h
      rw [setOptions, setOptions, textArg_same hsame]
  | case3 duration f g args ihsecs ihms =>
    obtain ⟨f', g', rest, rfl, hname, hpair⟩ := h.pair
    rw [setOptions, setOptions, ← textArg_same hname]
    refine bind_congr_ok fun opt hopt => ?_
    obtain ⟨hvalue, hrest⟩ := hpair opt (textArg_eq_ok.mp hopt)
    have hnumber : toUppercase opt = "EX" ∨ toUppercase opt = "PX" →
        numberArg notAnInteger syntaxErr g = numberArg notAnInteger syntaxErr g' := by
      intro hopt
      rw [if_pos (by simpa using hopt)] at hvalue
      exact numberArg_same hvalue
    dsimp only
    by_cases hex : toUppercase opt = "EX"
    · rw [if_pos hex, if_pos hex, ← hnumber (.inl hex)]
      exact bind_congr_ok fun _ _ => bind_congr_ok fun secs _ => ihsecs secs hrest
    · rw [if_neg hex, if_neg hex]
      by_cases hpx : toUppercase opt = "PX"
      · rw [if_pos hpx, if_pos hpx, ← hnumber (.inr hpx)]
        exact bind_congr_ok fun _ _ => bind_congr_ok fun ms _ => ihms ms hrest
      · rw [if_neg hpx, if_neg hpx]

theorem set_same [Unicode] (now : Instant) (h : Reencoded (argKinds "SET" args) args args') :
    Set.parseFrames now args = Set.parseFrames now args' := by
  have hkinds : argKinds "SET" args = .text :: .text :: optionKinds ["EX", "PX"] args.tail.tail :=
    if_pos rfl
  rw [hkinds] at h
  rw [Set.parseFrames, Set.parseFrames, bytesArg_head h rfl, bytesArg_head h.tail rfl,
    setOptions_same h.tail.tail]

theorem del_same (h : Reencoded [] args args') : Del.parseFrames args = Del.parseFrames args' := by
  rw [Del.parseFrames, Del.parseFrames, bytesArgs_same h]

theorem expire_same {unit : Nat → Duration} (h : Reencoded [.text, .number] args args') :
    Expire.parseIn cmd unit args = Expire.parseIn cmd unit args' := by
  rw [Expire.parseIn, Expire.parseIn, bytesArg_head h rfl]
  cases h with
  | nil => rfl
  | cons hkey h =>
    cases h with
    | nil => rfl
    | cons hnumber h =>
      simp only [List.tail_cons, nextArg, ok_bind, numberArg_same hnumber, noMoreArgs_same h]

theorem ttl_same {millis : Bool} (h : Reencoded [] args args') :
    Ttl.parseFrames millis args = Ttl.parseFrames millis args' := by
  rw [Ttl.parseFrames, Ttl.parseFrames, keyOnly_same h]

theorem indexArg_head (h : Reencoded kinds args args') (hk : kinds.headD .text = .number) :
    ListCmd.indexArg args.head? = ListCmd.indexArg args'.head? := by
  cases h with
  | nil => rfl
  | cons hsame h =>
    rw [hk] at hsame
    simp only [List.head?_cons, ListCmd.indexArg, numberArg_same hsame]

theorem lrange_same (h : Reencoded [.text, .number, .number] args args') :
    ListCmd.parseLrange args = ListCmd.parseLrange args' := by
  rw [ListCmd.parseLrange, ListCmd.parseLrange, bytesArg_head h rfl, indexArg_head h.tail rfl,
    indexArg_head h.tail.tail rfl, noMoreArgs_same h.tail.tail.tail]

theorem fieldArgs_same (h : Reencoded [] args args') :
    HashCmd.fieldArgs args = HashCmd.fieldArgs args' := by
  induction args using HashCmd.fieldArgs.induct generalizing args' with
  | case1 =>
    cases h
    rfl
  | case2 f =>
    cases h with
    | cons hsame h =>
      cases h
      rw [HashCmd.fieldArgs, HashCmd.fieldArgs, bytesArg_same hsame]
  | case3 f g args ih =>
    cases h with
    | cons hfield h =>
      cases h with
      | cons hvalue h =>
        rw [HashCmd.fieldArgs, HashCmd.fieldArgs, bytesArg_same hfield, bytesArg_same hvalue, ih h]

theorem hset_same (h : Reencoded [] args args') :
    HashCmd.parseHset args = HashCmd.parseHset args' := by
  rw [HashCmd.parseHset, HashCmd.parseHset, bytesArg_head h rfl, fieldArgs_same h.tail]

theorem channelArg_head (h : Reencoded [] args args') :
    PubSubCmd.channelArg other args.head? = PubSubCmd.channelArg other args'.head? := by
  cases h with
  | nil => rfl
  | cons hsame h => exact textArg_same hsame

theorem publish_same (h : Reencoded [] args args') :
    PubSubCmd.parsePublish args = PubSubCmd.parsePublish args' := by
  rw [PubSubCmd.parsePublish, PubSubCmd.parsePublish, channelArg_head h, bytesArg_head h.tail rfl,
    noMoreArgs_same h.tail.tail]

theorem channelArgs_same (h : Reencoded [] args args') :
    PubSubCmd.channelArgs args = PubSubCmd.channelArgs args' := by
  generalize hkinds : ([] : List Kind) = kinds at h
  induction h with
  | nil => rfl
  | cons hsame h ih =>
    subst hkinds
    rw [PubSubCmd.channelArgs, PubSubCmd.channelArgs, ih rfl]
    exact congrArg (· >>= _) (textArg_same hsame)

theorem subscribe_same (h : Reencoded [] args args') :
    PubSubCmd.parseSubscribe args = PubSubCmd.parseSubscribe args' := by
  rw [PubSubCmd.parseSubscribe, PubSubCmd.parseSubscribe, channelArgs_same h]

theorem keys_same (h : Reencoded [] args args') :
    Keys.parseFrames args = Keys.parseFrames args' := by
  cases h with
  | nil => rfl
  | cons hsame h =>
    simp only [Keys.parseFrames, nextArg, ok_bind, noMoreArgs_same h, bytesArg_same hsame]

-- ---------------------------------------------------------------------------
-- The grammar of SCAN
-- ---------------------------------------------------------------------------

/-- A number of at least `least`: an integer frame, or text that parses, of whatever value. -/
def IsNumber (least : Int) (f : Frame) : Prop :=
  (∃ i : Int64, least ≤ i.toInt ∧ f = .integer i) ∨
    ∃ n s, f.text? = some s ∧ parseU64 s = some n

def IsString (f : Frame) : Prop := (∃ s, f = .simple s) ∨ ∃ b, f = .bulk b

/-- Well-formed options of `SCAN`. -/
inductive ScanOptions [Unicode] : List Frame → Prop
  | nil : ScanOptions []
  | pattern {f g : Frame} {args : List Frame} :
    f.Names "MATCH" → IsString g → ScanOptions args → ScanOptions (f :: g :: args)
  | count {f g : Frame} {args : List Frame} :
    f.Names "COUNT" → IsNumber 1 g → ScanOptions args → ScanOptions (f :: g :: args)
  | typeFilter {f g : Frame} {args : List Frame} :
    f.Names "TYPE" → (∃ s, g.text? = some s) → ScanOptions args → ScanOptions (f :: g :: args)

/-- Well-formed arguments of `SCAN`. -/
inductive ScanArgs [Unicode] : List Frame → Prop
  | mk {f : Frame} {args : List Frame} : IsNumber 0 f → ScanOptions args → ScanArgs (f :: args)

/-- One of the option pairs is a `COUNT` of the integer frame 0. -/
inductive ZeroCount [Unicode] : List Frame → Prop
  | here {f : Frame} {args : List Frame} : f.Names "COUNT" → ZeroCount (f :: .integer 0 :: args)
  | later {f g : Frame} {args : List Frame} : ZeroCount args → ZeroCount (f :: g :: args)

theorem parsed_eq_ok {x : Option α} {a : α} : parsed err x = .ok a ↔ x = some a := by
  cases x <;> simp [parsed]

theorem bytesArg_ok_iff (err : String) : (∃ b, bytesArg err (some f) = .ok b) ↔ IsString f := by
  cases f <;> simp [bytesArg, IsString]

theorem cursorArg_ok_iff : (∃ n, Scan.cursorArg f = .ok n) ↔ IsNumber 0 f := by
  cases f with
  | integer i =>
    have hlt : i < 0 ↔ i.toInt < 0 := Int64.lt_iff_toInt_lt
    by_cases hneg : i.toInt < 0
    · simp [Scan.cursorArg, IsNumber, text?, hlt, hneg]
    · have hle : 0 ≤ i.toInt := Int.not_lt.mp hneg
      simp [Scan.cursorArg, IsNumber, text?, hlt, hneg, hle, parsed, parseU64_i64ToString]
  | _ => simp [Scan.cursorArg, IsNumber, bind_eq_ok, textArg_eq_ok, parsed_eq_ok]

theorem countArg_ok_iff : (∃ n, Scan.countArg f = .ok n) ↔ IsNumber 1 f := by
  cases f with
  | integer i =>
    have hle : i ≤ 0 ↔ i.toInt < 1 := by
      rw [Int64.le_iff_toInt_le, Int64.toInt_zero, Int.lt_add_one_iff.symm, zero_add]
    by_cases hpos : i.toInt < 1
    · simp [Scan.countArg, IsNumber, text?, hle, hpos]
    · have hone : 1 ≤ i.toInt := Int.not_lt.mp hpos
      simp [Scan.countArg, IsNumber, text?, hle, hpos, hone]
  | _ => simp [Scan.countArg, IsNumber, bind_eq_ok, textArg_eq_ok, parsed_eq_ok]

/-- Options that parse are well-formed. -/
theorem scanOptions_of_ok [Unicode] {scan a : Scan} (h : Scan.options scan args = .ok a) :
    ScanOptions args := by
  induction scan, args using Scan.options.induct with
  | case1 scan => exact .nil
  | case2 scan f =>
    obtain ⟨s, -, h⟩ := bind_eq_ok.mp h
    cases h
  | case3 scan f g args ihpattern ihcount ihtype =>
    rw [Scan.options] at h
    obtain ⟨opt, hopt, h⟩ := bind_eq_ok.mp h
    have htext := textArg_eq_ok.mp hopt
    dsimp only at h
    split at h
    · rename_i hname
      obtain ⟨pattern, hpattern, h⟩ := bind_eq_ok.mp h
      exact .pattern ⟨opt, htext, hname⟩ ((bytesArg_ok_iff _).mp ⟨_, hpattern⟩) (ihpattern pattern h)
    · split at h
      · rename_i hname
        obtain ⟨count, hcount, h⟩ := bind_eq_ok.mp h
        exact .count ⟨opt, htext, hname⟩ (countArg_ok_iff.mp ⟨_, hcount⟩) (ihcount count h)
      · split at h
        · rename_i hname
          obtain ⟨t, ht, h⟩ := bind_eq_ok.mp h
          exact .typeFilter ⟨opt, htext, hname⟩ ⟨t, textArg_eq_ok.mp ht⟩ (ihtype t h)
        · cases h

/-- Well-formed options parse. -/
theorem ScanOptions.ok [Unicode] (h : ScanOptions args) (scan : Scan) :
    ∃ a, Scan.options scan args = .ok a := by
  induction h generalizing scan with
  | nil => exact ⟨scan, rfl⟩
  | pattern hname hvalue h ih =>
    obtain ⟨s, hs, hname⟩ := hname
    obtain ⟨pattern, hpattern⟩ := (bytesArg_ok_iff syntaxErr).mpr hvalue
    simp only [Scan.options, textArg_eq_ok.mpr hs, ok_bind, hname, if_true, hpattern]
    exact ih _
  | count hname hvalue h ih =>
    obtain ⟨s, hs, hname⟩ := hname
    obtain ⟨count, hcount⟩ := countArg_ok_iff.mpr hvalue
    simp only [Scan.options, textArg_eq_ok.mpr hs, ok_bind, hname, hcount]
    exact ih _
  | typeFilter hname hvalue h ih =>
    obtain ⟨s, hs, hname⟩ := hname
    obtain ⟨t, ht⟩ := hvalue
    simp only [Scan.options, textArg_eq_ok.mpr hs, ok_bind, hname, textArg_eq_ok.mpr ht]
    exact ih _

theorem scan_ok_iff [Unicode] : (∃ a, Scan.parseFrames args = .ok a) ↔ ScanArgs args := by
  cases args with
  | nil =>
    constructor
    · rintro ⟨a, h⟩
      cases h
    · intro h
      cases h
  | cons f args =>
    rw [Scan.parseFrames, nextArg, ok_bind]
    constructor
    · rintro ⟨a, h⟩
      obtain ⟨cursor, hcursor, h⟩ := bind_eq_ok.mp h
      exact .mk (cursorArg_ok_iff.mp ⟨cursor, hcursor⟩) (scanOptions_of_ok h)
    · intro h
      cases h with
      | mk hcursor h =>
        obtain ⟨cursor, hcursor⟩ := cursorArg_ok_iff.mpr hcursor
        simp only [hcursor, ok_bind]
        exact h.ok _

/-- Options with a `COUNT` of the integer frame 0 are not well-formed. -/
theorem ScanOptions.not_zeroCount [Unicode] (h : ScanOptions args) : ¬ ZeroCount args := by
  induction h with
  | nil =>
    intro hz
    cases hz
  | pattern hname hvalue h ih =>
    intro hz
    cases hz with
    | here hcount => simp [IsString] at hvalue
    | later hz => exact ih hz
  | count hname hvalue h ih =>
    intro hz
    cases hz with
    | here hcount => simp [IsNumber, text?] at hvalue
    | later hz => exact ih hz
  | typeFilter hname hvalue h ih =>
    intro hz
    cases hz with
    | here hcount => simp [text?] at hvalue
    | later hz => exact ih hz

-- ---------------------------------------------------------------------------
-- SCAN under re-encoding
-- ---------------------------------------------------------------------------

theorem cursorArg_same (h : SameNumber f g) : Scan.cursorArg f = Scan.cursorArg g := by
  cases h with
  | text h =>
    cases h with
    | refl => rfl
    | bulk s => simp only [Scan.cursorArg, textArg, fromUtf8_asBytes]
  | decimal i =>
    simp only [Scan.cursorArg, textArg, fromUtf8_asBytes, ok_bind, parseU64_i64ToString,
      Int64.lt_iff_toInt_lt, Int64.toInt_zero]
    split <;> rfl

theorem countArg_same (h : SameNumber f g) (hz : f ≠ .integer 0) :
    Scan.countArg f = Scan.countArg g := by
  cases h with
  | text h =>
    cases h with
    | refl => rfl
    | bulk s => simp only [Scan.countArg, textArg, fromUtf8_asBytes]
  | decimal i =>
    have hne : i.toInt ≠ 0 := fun h => hz (congrArg _ (Int64.toInt_inj.mp h))
    simp only [Scan.countArg, textArg, fromUtf8_asBytes, ok_bind, parseU64_i64ToString,
      Int64.le_iff_toInt_le, Int64.toInt_zero]
    by_cases hneg : i.toInt < 0
    · rw [if_pos hneg, if_pos hneg.le]
      rfl
    · rw [if_neg hneg, if_neg (by omega)]
      rfl

theorem options_same [Unicode] {scan : Scan}
    (h : Reencoded (optionKinds ["COUNT"] args) args args') (hz : ¬ ZeroCount args) :
    Scan.options scan args = Scan.options scan args' := by
  induction scan, args using Scan.options.induct generalizing args' with
  | case1 scan =>
    cases h
    rfl
  | case2 scan f =>
    cases h with
    | cons hsame h =>
      cases h
      rw [Scan.options, Scan.options, textArg_same hsame]
  | case3 scan f g args ihpattern ihcount ihtype =>
    have hlater : ¬ ZeroCount args := fun h => hz (.later h)
    obtain ⟨f', g', rest, rfl, hname, hpair⟩ := h.pair
    rw [Scan.options, Scan.options, ← textArg_same hname]
    refine bind_congr_ok fun opt hopt => ?_
    have htext := textArg_eq_ok.mp hopt
    obtain ⟨hvalue, hrest⟩ := hpair opt htext
    have hstring : toUppercase opt ≠ "COUNT" → SameText g g' := by
      intro hopt
      rwa [if_neg (by simpa using hopt)] at hvalue
    dsimp only
    by_cases hmatch : toUppercase opt = "MATCH"
    · have hsame : SameText g g' := hstring (by simp [hmatch])
      rw [if_pos hmatch, if_pos hmatch, bytesArg_same hsame]
      exact bind_congr_ok fun pattern _ => ihpattern pattern hrest hlater
    · rw [if_neg hmatch, if_neg hmatch]
      by_cases hcount : toUppercase opt = "COUNT"
      · have hne : g ≠ .integer 0 := by
          rintro rfl
          exact hz (.here ⟨opt, htext, hcount⟩)
        rw [if_pos (by simpa using hcount)] at hvalue
        rw [if_pos hcount, if_pos hcount, countArg_same hvalue hne]
        exact bind_congr_ok fun count _ => ihcount count hrest hlater
      · rw [if_neg hcount, if_neg hcount, textArg_same (hstring hcount)]
        by_cases htype : toUppercase opt = "TYPE"
        · rw [if_pos htype, if_pos htype]
          exact bind_congr_ok fun t _ => ihtype t hrest hlater
        · rw [if_neg htype, if_neg htype]

theorem scan_same [Unicode] (h : Reencoded (argKinds "SCAN" args) args args')
    (hz : ¬ ZeroCount args.tail) : Scan.parseFrames args = Scan.parseFrames args' := by
  cases h with
  | nil => rfl
  | cons hcursor h =>
    rw [Scan.parseFrames, Scan.parseFrames, nextArg, nextArg, ok_bind, ok_bind]
    dsimp only
    rw [cursorArg_same hcursor]
    exact bind_congr_ok fun cursor _ => options_same h hz

/-- A `COUNT` of the integer frame 0 is an error, whose re-encoding need not be one. -/
theorem scan_alike_iff [Unicode] (h : Reencoded (argKinds "SCAN" args) args args') :
    Alike (Scan.parseFrames args) (Scan.parseFrames args') ↔
      ¬ (ZeroCount args.tail ∧ ScanArgs args') := by
  by_cases hz : ZeroCount args.tail
  · have herr : ¬ ∃ a, Scan.parseFrames args = .ok a := by
      rw [scan_ok_iff]
      intro hargs
      cases hargs with
      | mk hcursor hoptions => exact hoptions.not_zeroCount hz
    rw [alike_iff_of_err ((answers_scan args).eq_err herr), ← scan_ok_iff]
    constructor
    · rintro ⟨e, he⟩ ⟨-, a, ha⟩
      rw [ha] at he
      cases he
    · exact fun hok => (answers_scan args').eq_err fun ha => hok ⟨hz, ha⟩
  · exact iff_of_true (.inl (scan_same h hz)) fun hboth => hz hboth.1

end Cmd

-- ---------------------------------------------------------------------------
-- Command::from_frame
-- ---------------------------------------------------------------------------

namespace Command

section

variable [Unicode]

/-- The parser does not tell re-encoded arguments apart, unless it is that of `SCAN`. -/
def Uniform (e : String × (List Frame → Outcome String Command)) : Prop :=
  e.1 ≠ "SCAN" → ∀ args args', Reencoded (argKinds e.1 args) args args' → e.2 args = e.2 args'

theorem uniform_wrap {name : String} {k : α → Command} {parse : List Frame → Outcome String α}
    (h : ∀ args args', Reencoded (argKinds name args) args args' → parse args = parse args') :
    Uniform (name, wrap k parse) :=
  fun _ args args' hsame => congrArg (· >>= _) (h args args' hsame)

/-- A parser of strings only. -/
theorem uniform_strings {name : String} {k : α → Command} {parse : List Frame → Outcome String α}
    (hname : ∀ args, argKinds name args = [])
    (h : ∀ {args args'}, Reencoded [] args args' → parse args = parse args') :
    Uniform (name, wrap k parse) :=
  uniform_wrap fun args _ hsame => h (hname args ▸ hsame)

omit [Unicode] in
/-- A parser that wraps what it reads. -/
theorem same_map {parse : List Frame → Outcome String α} {k : α → β}
    (h : ∀ {args args'}, Reencoded [] args args' → parse args = parse args')
    {args args' : List Frame} (hsame : Reencoded [] args args') :
    (parse args >>= fun a => pure (k a)) = parse args' >>= fun a => pure (k a) :=
  congrArg (· >>= _) (h hsame)

theorem uniform_parsers (now : Instant) : ∀ e ∈ parsers now, Uniform e := by
  simp only [parsers, List.forall_mem_cons, List.not_mem_nil, IsEmpty.forall_iff, implies_true,
    and_true]
  exact ⟨uniform_strings (fun _ => rfl) ping_same, uniform_strings (fun _ => rfl) echo_same,
    uniform_strings (fun _ => rfl) (same_map keyOnly_same),
    uniform_wrap fun _ _ => set_same now, uniform_strings (fun _ => rfl) del_same,
    uniform_wrap fun _ _ => expire_same, uniform_wrap fun _ _ => expire_same,
    uniform_strings (fun _ => rfl) ttl_same, uniform_strings (fun _ => rfl) ttl_same,
    uniform_strings (fun _ => rfl) (same_map keyAndArgs_same),
    uniform_strings (fun _ => rfl) (same_map keyAndArgs_same),
    uniform_strings (fun _ => rfl) (same_map keyOnly_same),
    uniform_strings (fun _ => rfl) (same_map keyOnly_same),
    uniform_wrap fun _ _ => lrange_same, uniform_strings (fun _ => rfl) hset_same,
    uniform_strings (fun _ => rfl) (same_map keyAndArg_same),
    uniform_strings (fun _ => rfl) (same_map keyAndArgs_same),
    uniform_strings (fun _ => rfl) (same_map keyOnly_same),
    uniform_strings (fun _ => rfl) (same_map keyAndArgs_same),
    uniform_strings (fun _ => rfl) (same_map keyOnly_same),
    uniform_strings (fun _ => rfl) (same_map keyAndArgs_same),
    uniform_strings (fun _ => rfl) (same_map keyAndArg_same),
    uniform_strings (fun _ => rfl) publish_same, uniform_strings (fun _ => rfl) subscribe_same,
    uniform_strings (fun _ => rfl) keys_same, fun h => absurd rfl h, fun _ _ _ _ => rfl,
    fun _ _ _ _ => rfl, fun _ _ _ _ => rfl⟩

omit [Unicode] in
/-- A name has the same text in either encoding. -/
theorem text?_same {f g : Frame} (h : SameText f g) : g.text? = f.text? := by
  cases h with
  | refl => rfl
  | bulk s => exact fromUtf8_asBytes s

theorem alike_wrap_scan {args args' : List Frame} :
    Alike (wrap .scan Scan.parseFrames args) (wrap .scan Scan.parseFrames args') ↔
      Alike (Scan.parseFrames args) (Scan.parseFrames args') := by
  rw [wrap, wrap]
  cases Scan.parseFrames args <;> cases Scan.parseFrames args' <;> simp [Alike]

/-- A name frame without text is an error that does not look at the arguments. -/
theorem fromFrame_of_no_text {f g : Frame} (args args' : List Frame) (now : Instant)
    (hname : SameText f g) (htext : f.text? = none) :
    fromFrame now (.array (f :: args)) = fromFrame now (.array (g :: args')) := by
  rw [fromFrame, fromFrame, nameArg, ← textArg_same hname]
  refine bind_congr_ok fun name hok => ?_
  rw [textArg_eq_ok.mp hok] at htext
  cases htext

theorem names_iff {f : Frame} {name : String} (htext : f.text? = some name) (upper : String) :
    f.Names upper ↔ toUppercase name = upper := by
  rw [Frame.Names, htext]
  constructor
  · rintro ⟨s, hs, hupper⟩
    cases hs
    exact hupper
  · exact fun hupper => ⟨name, rfl, hupper⟩

/-- Commands other than `SCAN` do not tell re-encoded arguments apart. -/
theorem lookup_same {name : String} {args args' : List Frame} (now : Instant)
    (hscan : name ≠ "SCAN") (hargs : Reencoded (argKinds name args) args args') :
    (match (parsers now).lookup name with
      | some parse => parse args
      | none => .err (unknownCommand name)) =
    match (parsers now).lookup name with
      | some parse => parse args'
      | none => .err (unknownCommand name) := by
  cases hlookup : (parsers now).lookup name with
  | none => rfl
  | some parse => exact uniform_parsers now _ (mem_of_lookup hlookup) hscan args args' hargs

/-- A command is parsed alike however its arguments are encoded, but for a `SCAN` that gives
`COUNT` as the integer frame 0 and is well-formed once that is text. -/
theorem fromFrame_alike_iff {f g : Frame} {args args' : List Frame} (now : Instant)
    (hname : SameText f g) (hargs : Reencoded (requestKinds f args) args args') :
    Alike (fromFrame now (.array (f :: args))) (fromFrame now (.array (g :: args'))) ↔
      ¬ (f.Names "SCAN" ∧ ZeroCount args.tail ∧ ScanArgs args') := by
  cases htext : f.text? with
  | none =>
    refine iff_of_true (.inl (fromFrame_of_no_text args args' now hname htext)) ?_
    rintro ⟨⟨s, hs, -⟩, -⟩
    rw [hs] at htext
    cases htext
  | some name =>
    have hf : nameArg f = .ok name := textArg_eq_ok.mpr htext
    have hg : nameArg g = .ok name := textArg_eq_ok.mpr ((text?_same hname).trans htext)
    rw [requestKinds, htext] at hargs
    dsimp only at hargs
    rw [fromFrame_cons hf, fromFrame_cons hg, names_iff htext]
    by_cases hscan : toUppercase name = "SCAN"
    · have hlookup : (parsers now).lookup "SCAN" = some (wrap .scan Scan.parseFrames) := rfl
      rw [hscan] at hargs
      rw [hscan, hlookup, and_iff_right rfl]
      dsimp only
      rw [alike_wrap_scan, scan_alike_iff hargs]
    · exact iff_of_true (.inl (lookup_same now hscan hargs)) fun h => hscan h.1

end

/-- A time to live in either encoding. -/
theorem fromFrame_alike_expire :
    let request (seconds : Frame) : Frame := .array [.simple "expire", .simple "k", seconds]
    Alike (@fromFrame Unicode.ascii 0 (request (.integer 30)))
      (@fromFrame Unicode.ascii 0 (request (.bulk (asBytes "30")))) := by
  let _ := Unicode.ascii
  refine (fromFrame_alike_iff 0 (.refl _) ?_).mpr ?_
  · have hkinds : requestKinds (.simple "expire") [.simple "k", .integer 30] = [.text, .number] := by
      decide +kernel
    rw [hkinds]
    exact .cons (.refl _) (.cons (.decimal 30) .nil)
  · rintro ⟨⟨s, hs, hname⟩, -⟩
    cases hs
    exact absurd hname (by decide +kernel)

/-- `COUNT` refuses a zero that is an integer frame, and takes it as text. -/
theorem zero_count_refused :
    let request (count : Frame) : List Frame :=
      [.bulk (asBytes "0"), .bulk (asBytes "COUNT"), count]
    let zero : Frame := .bulk (asBytes (i64ToString 0))
    @Reencoded (@requestKinds Unicode.ascii (.bulk (asBytes "SCAN")) (request (.integer 0)))
        (request (.integer 0)) (request zero) ∧
      ¬ Alike (@fromFrame Unicode.ascii 0 (.array (.bulk (asBytes "SCAN") :: request (.integer 0))))
        (@fromFrame Unicode.ascii 0 (.array (.bulk (asBytes "SCAN") :: request zero))) := by
  let _ := Unicode.ascii
  intro request zero
  have hkinds : requestKinds (.bulk (asBytes "SCAN")) (request (.integer 0)) =
      [.number, .text, .number] := by
    decide +kernel
  have hinteger : fromFrame 0 (.array (.bulk (asBytes "SCAN") :: request (.integer 0))) =
      .err notAnInteger := by
    decide +kernel
  have htext : fromFrame 0 (.array (.bulk (asBytes "SCAN") :: request zero)) =
      .ok (.scan { cursor := 0, pattern := none, count := 0, typeFilter := none }) := by
    decide +kernel
  refine ⟨?_, ?_⟩
  · rw [hkinds]
    exact .cons (.text (.refl _)) (.cons (.refl _) (.cons (.decimal 0) .nil))
  · rw [hinteger, htext]
    rintro (h | ⟨-, e, h⟩)
    · cases h
    · cases h

end Command

end InMemoryCache
