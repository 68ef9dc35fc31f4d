/-!
# Reading UTF-8

Decodes bytes into characters. The first sequence that is no character is reported with the bytes
it covers and the reason: a byte that begins no sequence, a byte that does not continue the
sequence before it, or an end of the bytes in the middle of a sequence.
-/

namespace Lox.Text.Utf8

/-- Why a sequence of bytes is no character. -/
inductive Reason where
  | badStart
  | badContinuation
  | cutShort
  deriving DecidableEq, Repr

/-- The bytes from `start` up to `stop` form no character; `first` is the byte at `start`. -/
structure Malformed where
  start : Nat
  stop : Nat
  first : UInt8
  reason : Reason
  deriving DecidableEq, Repr

/-- Whether `b` carries six further bits of a character. -/
def continues (b : UInt8) : Bool := 0x80 ≤ b && b ≤ 0xBF

/-- Whether `b` may stand second after the first byte `a`; this excludes overlong forms, surrogates
and code points above U+10FFFF. -/
def second (a b : UInt8) : Bool :=
  if a = 0xE0 then 0xA0 ≤ b && b ≤ 0xBF
  else if a = 0xED then 0x80 ≤ b && b ≤ 0x9F
  else if a = 0xF0 then 0x90 ≤ b && b ≤ 0xBF
  else if a = 0xF4 then 0x80 ≤ b && b ≤ 0x8F
  else continues b

/-- The code point with the payload `high` of a first byte and the continuation bytes `tail`. -/
def assemble (high : Nat) (tail : List UInt8) : Char :=
  Char.ofNat (tail.foldl (fun n b => 64 * n + b.toNat % 64) high)

/-- Decodes `bytes`, which begin at `offset`, after the characters of `done` in reverse order. -/
def decodeFrom (offset : Nat) (done : List Char) : List UInt8 → Except Malformed (List Char)
  | [] => .ok done.reverse
  | a :: as =>
    let fail (count : Nat) (reason : Reason) := Except.error ⟨offset, offset + count, a, reason⟩
    if a < 0x80 then decodeFrom (offset + 1) (Char.ofNat a.toNat :: done) as
    else if a < 0xC2 || 0xF4 < a then fail 1 .badStart
    else match as with
      | [] => fail 1 .cutShort
      | b :: bs =>
        if !second a b then fail 1 .badContinuation
        else if a < 0xE0 then
          decodeFrom (offset + 2) (assemble (a.toNat % 32) [b] :: done) bs
        else match bs with
          | [] => fail 2 .cutShort
          | c :: cs =>
            if !continues c then fail 2 .badContinuation
            else if a < 0xF0 then
              decodeFrom (offset + 3) (assemble (a.toNat % 16) [b, c] :: done) cs
            else match cs with
              | [] => fail 3 .cutShort
              | d :: ds =>
                if !continues d then fail 3 .badContinuation
                else decodeFrom (offset + 4) (assemble (a.toNat % 8) [b, c, d] :: done) ds

/-- The characters that `bytes` encode. -/
def decode (bytes : List UInt8) : Except Malformed (List Char) := decodeFrom 0 [] bytes

/-- The reason in words. -/
def Reason.text : Reason → String
  | .badStart => "invalid start byte"
  | .badContinuation => "invalid continuation byte"
  | .cutShort => "unexpected end of data"

/-- A byte as two lower-case hexadecimal digits. -/
def hexByte (b : UInt8) : String :=
  String.ofList [Nat.digitChar (b.toNat / 16), Nat.digitChar (b.toNat % 16)]

/-- One line that names the place and the reason. -/
def Malformed.text (m : Malformed) : String :=
  let place :=
    if m.stop = m.start + 1 then
      "byte 0x" ++ hexByte m.first ++ " in position " ++ toString m.start
    else
      "bytes in position " ++ toString m.start ++ "-" ++ toString (m.stop - 1)
  "'utf-8' codec can't decode " ++ place ++ ": " ++ m.reason.text

end Lox.Text.Utf8
