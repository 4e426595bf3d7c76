-- SUMMARY: RESP frames: the checker, the parser and the encoder.
import InMemoryCache.Basic
import InMemoryCache.Lib.Reader

/-!
# Frames

The wire format. `check` decides whether a whole frame is buffered and how long it
is, `parse` builds it, and `writeToBuf` encodes it. A cursor is the list of bytes
from its position on, so both readers return the bytes they leave. The source's
`check` and `parse` call themselves for array elements; here one level of each is
a function of the reader for the elements, and the recursion is bounded by the
number of bytes at hand (`check_eq` and `parse_eq` take the bound away again).
-/

namespace InMemoryCache

open Lib

/-- A RESP frame. -/
inductive Frame where
  | simple (s : String)
  | error (s : String)
  | integer (i : Int64)
  | bulk (b : Bytes)
  | null
  | array (fs : List Frame)
  deriving Repr

/-- `FrameError`: not enough data, or `Other` with its text. -/
abbrev FrameError := ReadError String

namespace Frame

mutual

def decEq : (f g : Frame) → Decidable (f = g)
  | .simple s, .simple t => decidable_of_iff (s = t) (by simp)
  | .error s, .error t => decidable_of_iff (s = t) (by simp)
  | .integer i, .integer j => decidable_of_iff (i = j) (by simp)
  | .bulk b, .bulk c => decidable_of_iff (b = c) (by simp)
  | .null, .null => isTrue rfl
  | .array fs, .array gs =>
    match decEqAll fs gs with
    | isTrue h => isTrue (by rw [h])
    | isFalse h => isFalse (by simpa using h)
  | .simple _, .error _ | .simple _, .integer _ | .simple _, .bulk _ | .simple _, .null
  | .simple _, .array _ | .error _, .simple _ | .error _, .integer _ | .error _, .bulk _
  | .error _, .null | .error _, .array _ | .integer _, .simple _ | .integer _, .error _
  | .integer _, .bulk _ | .integer _, .null | .integer _, .array _ | .bulk _, .simple _
  | .bulk _, .error _ | .bulk _, .integer _ | .bulk _, .null | .bulk _, .array _
  | .null, .simple _ | .null, .error _ | .null, .integer _ | .null, .bulk _ | .null, .array _
  | .array _, .simple _ | .array _, .error _ | .array _, .integer _ | .array _, .bulk _
  | .array _, .null => isFalse (by simp)

def decEqAll : (fs gs : List Frame) → Decidable (fs = gs)
  | [], [] => isTrue rfl
  | [], _ :: _ | _ :: _, [] => isFalse (by simp)
  | f :: fs, g :: gs =>
    match decEq f g, decEqAll fs gs with
    | isTrue hf, isTrue hfs => isTrue (by rw [hf, hfs])
    | isFalse h, _ => isFalse (by simp [h])
    | _, isFalse h => isFalse (by simp [h])

end

instance : DecidableEq Frame := decEq

/-- Induction over frames and, for arrays, over their elements. -/
@[elab_as_elim]
theorem induct {P : Frame → Prop} (simple : ∀ s, P (.simple s)) (error : ∀ s, P (.error s))
    (integer : ∀ i, P (.integer i)) (bulk : ∀ b, P (.bulk b)) (null : P .null)
    (array : ∀ fs, (∀ f ∈ fs, P f) → P (.array fs)) (f : Frame) : P f :=
  @Frame.rec P (fun fs => ∀ f ∈ fs, P f)
    simple error integer bulk null array (by simp)
    (fun f fs hf hfs g hg => by
      rcases List.mem_cons.mp hg with rfl | hg
      · exact hf
      · exact hfs g hg) f

-- ---------------------------------------------------------------------------
-- Cursor primitives
-- ---------------------------------------------------------------------------

def peekU8 : Reader UInt8 String UInt8 := Reader.peek

def getU8 : Reader UInt8 String UInt8 := Reader.next

/-- Split off a line: the bytes before the first `\r\n`, and the cursor after it. -/
def getLine : Reader UInt8 String Bytes
  | [] => .error .incomplete
  | c :: src =>
    if c = CR ∧ src.head? = some LF then .ok ([], src.tail)
    else match getLine src with
      | .ok (line, rest) => .ok (c :: line, rest)
      | .error e => .error e

def getDecimal : Reader UInt8 String Int64 := do
  let line ← getLine
  match fromUtf8 line with
  | none => Reader.reject "invalid utf8 integer"
  | some s =>
    match parseI64 s with
    | none => Reader.reject "invalid integer digits"
    | some i => pure i

-- ---------------------------------------------------------------------------
-- Frame::check
-- ---------------------------------------------------------------------------

/-- The two bytes that must end a bulk string; the second is read only if the
first is right. -/
def checkCrlf : Reader UInt8 String Unit := do
  let c ← getU8
  if c ≠ CR then Reader.reject "bulk string not followed by CRLF"
  else do
    let c ← getU8
    if c ≠ LF then Reader.reject "bulk string not followed by CRLF" else pure ()

/-- What follows `$-`: only the null bulk string is allowed. -/
def nullLine : Reader UInt8 String Unit := do
  let line ← getLine
  if line = [byte '-', byte '1'] then pure () else Reader.reject "invalid null bulk string"

def checkBulk : Reader UInt8 String Unit := do
  let b ← peekU8
  if b = byte '-' then nullLine
  else do
    let len ← getDecimal
    if len < 0 then Reader.reject "negative bulk string length"
    else do
      let len := len.toInt.toNat
      Reader.ensure (len + 2)
      let _ ← Reader.takeN len
      checkCrlf

/-- One level of `Frame::check`; `elem` checks the elements of an array. -/
def checkStep (elem : Reader UInt8 String Unit) : Reader UInt8 String Unit := do
  let b ← peekU8
  if b = byte '+' then do
    let _ ← getU8
    let _ ← getLine
    pure ()
  else if b = byte '-' then do
    let _ ← getU8
    let _ ← getLine
    pure ()
  else if b = byte ':' then do
    let _ ← getU8
    let _ ← getDecimal
    pure ()
  else if b = byte '$' then do
    let _ ← getU8
    checkBulk
  else if b = byte '*' then do
    let _ ← getU8
    let len ← getDecimal
    if len < 0 then Reader.reject "negative array length"
    else Reader.times elem len.toInt.toNat
  else do
    let _ ← getLine
    pure ()

def checkFuel : Nat → Reader UInt8 String Unit
  | 0 => Reader.starve
  | fuel + 1 => checkStep (checkFuel fuel)

/-- `Frame::check`. -/
def check : Reader UInt8 String Unit := fun src => checkFuel (src.length + 1) src

-- ---------------------------------------------------------------------------
-- Frame::parse
-- ---------------------------------------------------------------------------

/-- `String::from_utf8(line)?`. -/
def utf8 (line : Bytes) : Reader UInt8 String String :=
  match fromUtf8 line with
  | none => Reader.reject "protocol error; invalid utf8 string"
  | some s => pure s

/-- `usize::try_from(len)?`. -/
def tryUsize (len : Int64) : Reader UInt8 String Nat :=
  if len < 0 then Reader.reject "protocol error; invalid integer conversion"
  else pure len.toInt.toNat

def parseBulk : Reader UInt8 String Frame := do
  let b ← peekU8
  if b = byte '-' then do
    nullLine
    pure .null
  else do
    let len ← getDecimal
    let n ← tryUsize len
    Reader.ensure (n + 2)
    let data ← Reader.takeN n
    checkCrlf
    pure (.bulk data)

/-- `char::is_whitespace`: the Unicode `White_Space` property. -/
def isWhitespace (c : Char) : Bool :=
  let n := c.toNat
  (0x09 ≤ n && n ≤ 0x0D) || n == 0x20 || n == 0x85 || n == 0xA0 || n == 0x1680 ||
    (0x2000 ≤ n && n ≤ 0x200A) || n == 0x2028 || n == 0x2029 || n == 0x202F || n == 0x205F ||
    n == 0x3000

/-- The maximal runs of non-white characters; `cur` is the run under way, reversed. -/
def words (cur : List Char) : List Char → List (List Char)
  | [] => if cur.isEmpty then [] else [cur.reverse]
  | c :: cs =>
    if isWhitespace c then
      if cur.isEmpty then words [] cs else cur.reverse :: words [] cs
    else words (c :: cur) cs

/-- `str::split_whitespace`. -/
def splitWhitespace (s : String) : List String := (words [] s.toList).map String.ofList

/-- An inline command: its words as bulk strings. -/
def inlineFrame (s : String) : Frame := .array ((splitWhitespace s).map fun p => .bulk (asBytes p))

/-- One level of `Frame::parse`; `elem` parses the elements of an array. -/
def parseStep (elem : Reader UInt8 String Frame) : Reader UInt8 String Frame := do
  let b ← peekU8
  if b = byte '+' then do
    let _ ← getU8
    let line ← getLine
    let s ← utf8 line
    pure (.simple s)
  else if b = byte '-' then do
    let _ ← getU8
    let line ← getLine
    let s ← utf8 line
    pure (.error s)
  else if b = byte ':' then do
    let _ ← getU8
    let val ← getDecimal
    pure (.integer val)
  else if b = byte '$' then do
    let _ ← getU8
    parseBulk
  else if b = byte '*' then do
    let _ ← getU8
    let len ← getDecimal
    let n ← tryUsize len
    let out ← Reader.collect elem n
    pure (.array out)
  else do
    let line ← getLine
    match fromUtf8 line with
    | none => Reader.reject "invalid utf8 inline command"
    | some s => pure (inlineFrame s)

def parseFuel : Nat → Reader UInt8 String Frame
  | 0 => Reader.starve
  | fuel + 1 => parseStep (parseFuel fuel)

/-- `Frame::parse`. -/
def parse : Reader UInt8 String Frame := fun src => parseFuel (src.length + 1) src

-- ---------------------------------------------------------------------------
-- Frame::write_to_buf
-- ---------------------------------------------------------------------------

mutual

/-- `Frame::write_to_buf`: the bytes appended for a frame. -/
def writeToBuf : Frame → Bytes
  | .simple s => byte '+' :: asBytes s ++ crlf
  | .error s => byte '-' :: asBytes s ++ crlf
  | .integer i => byte ':' :: asBytes (i64ToString i) ++ crlf
  | .null => [byte '$', byte '-', byte '1'] ++ crlf
  | .bulk b => byte '$' :: asBytes (usizeToString b.length) ++ crlf ++ b ++ crlf
  | .array fs => byte '*' :: asBytes (usizeToString fs.length) ++ crlf ++ writeAll fs

def writeAll : List Frame → Bytes
  | [] => []
  | f :: fs => writeToBuf f ++ writeAll fs

end

end Frame

end InMemoryCache
