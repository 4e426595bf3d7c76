-- SUMMARY: Glob patterns as the KEYS and SCAN commands match them.
import InMemoryCache.Basic

/-!
# Glob patterns

`glob_match`, with its indices into the pattern and the text as the suffixes they
point to. After a `*` the matcher remembers where the star's text began; a mismatch
returns to the star and lets it take one more byte.
-/

namespace InMemoryCache

namespace Glob

/-- The scan of a class body for byte `c`: whether `c` was matched, whether the class
was closed, and the pattern after it. -/
def classBody (c : UInt8) (matched : Bool) : Bytes → Bool × Bool × Bytes
  | [] => (matched, false, [])
  | b :: d :: e :: p =>
    if b = byte ']' then (matched, true, d :: e :: p)
    else if d = byte '-' ∧ e ≠ byte ']' then classBody c (matched || (b ≤ c && c ≤ e)) p
    else classBody c (matched || b == c) (d :: e :: p)
  | b :: p =>
    if b = byte ']' then (matched, true, p)
    else classBody c (matched || b == c) p

/-- The last star: the pattern after it, and the text from where its match began. -/
abbrev Star := Option (Bytes × Bytes)

/-- Where matching goes on: at a pattern and a text, or nowhere. -/
structure Position where
  pattern : Bytes
  text : Bytes
  star : Star

/-- Return to the last star and let it take one more byte. -/
def backtrack : Star → Option Position
  | some (p, _ :: t) => some { pattern := p, text := t, star := some (p, t) }
  | _ => none

/-- One iteration of the loop over the text, at its byte `c`. -/
def step (pattern : Bytes) (c : UInt8) (text : Bytes) (star : Star) : Option Position :=
  match pattern with
  | [] => backtrack star
  | b :: p =>
    if b = byte '*' then some { pattern := p, text := c :: text, star := some (p, c :: text) }
    else if b = byte '?' then some { pattern := p, text := text, star := star }
    else if b = byte '[' then
      let negate := p.head? = some (byte '^') ∨ p.head? = some (byte '!')
      let (matched, closed, p) := classBody c false (if negate then p.tail else p)
      if (matched && closed) ≠ decide negate then some { pattern := p, text := text, star := star }
      else backtrack star
    else if b = byte '\\' then
      match p with
      | e :: p => if e = c then some { pattern := p, text := text, star := star } else backtrack star
      | [] => backtrack star
    else if b = c then some { pattern := p, text := text, star := star }
    else backtrack star

def loop : Nat → Bytes → Bytes → Star → Bool
  | 0, _, _, _ => false
  | _ + 1, pattern, [], _ => (pattern.dropWhile (· = byte '*')).isEmpty
  | fuel + 1, pattern, c :: text, star =>
    match step pattern c text star with
    | some s => loop fuel s.pattern s.text s.star
    | none => false

end Glob

/-- `glob_match`. Each iteration moves the star on in the text or the position on in
the pattern, which bounds their number. -/
def globMatch (pattern text : Bytes) : Bool :=
  Glob.loop ((text.length + 1) * (pattern.length + 1) + 1) pattern text none

example : globMatch (asBytes "h[a-c]*o\\*") (asBytes "hbello*") = true := by decide +kernel

end InMemoryCache
