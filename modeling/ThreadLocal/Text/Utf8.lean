import ThreadLocal.Bytes

/-!
UTF-8: the bytes of a text, and the text of some bytes or the first place where they stop being one.
-/

namespace ThreadLocal
namespace Utf8

def encode (cs : List Char) : Bytes :=
  cs.flatMap String.utf8EncodeChar

inductive Flaw where
  | badStart
  | badContinuation
  | truncated
deriving DecidableEq, Repr

/-- The first ill-formed stretch of a byte string: where it starts, its first byte and its width. -/
structure Fault where
  flaw : Flaw
  byte : UInt8
  start : Nat
  width : Nat
deriving DecidableEq, Repr

def Flaw.message : Flaw → String
  | .badStart => "invalid start byte"
  | .badContinuation => "invalid continuation byte"
  | .truncated => "unexpected end of data"

def hexDigit (n : Nat) : Char :=
  if n < 10 then Char.ofNat (48 + n) else Char.ofNat (87 + n)

/-- The lower `digits` hexadecimal digits of `n`. -/
def hexDigits : Nat → Nat → List Char
  | 0, _ => []
  | digits + 1, n => hexDigits digits (n / 16) ++ [hexDigit (n % 16)]

def Fault.message (f : Fault) : String :=
  let place :=
    if f.width = 1 then
      "byte 0x" ++ String.ofList (hexDigits 2 f.byte.toNat) ++ " in position " ++ toString f.start
    else
      "bytes in position " ++ toString f.start ++ "-" ++ toString (f.start + f.width - 1)
  "'utf-8' codec can't decode " ++ place ++ ": " ++ f.flaw.message

/-- What a lead byte announces. -/
structure Lead where
  /-- how many continuation bytes follow -/
  more : Nat
  /-- the least value of the first of them -/
  low : UInt8
  /-- the greatest value of the first of them -/
  high : UInt8
  /-- the bits that the lead byte itself contributes -/
  bits : Nat

/-- Bytes below `0xc2` but above ASCII, and those past `0xf4`, begin no character; the narrowed ranges
leave out overlong forms, surrogates and values above the last code point. -/
def lead (b : UInt8) : Option Lead :=
  if b < 0x80 then some ⟨0, 0, 0, b.toNat⟩
  else if b < 0xc2 then none
  else if b < 0xe0 then some ⟨1, 0x80, 0xbf, b.toNat - 0xc0⟩
  else if b = 0xe0 then some ⟨2, 0xa0, 0xbf, 0⟩
  else if b = 0xed then some ⟨2, 0x80, 0x9f, 0xd⟩
  else if b < 0xf0 then some ⟨2, 0x80, 0xbf, b.toNat - 0xe0⟩
  else if b = 0xf0 then some ⟨3, 0x90, 0xbf, 0⟩
  else if b < 0xf4 then some ⟨3, 0x80, 0xbf, b.toNat - 0xf0⟩
  else if b = 0xf4 then some ⟨3, 0x80, 0x8f, 4⟩
  else none

/-- Reads `more` continuation bytes after `bits`; a failure tells how many bytes of the character were
good so far, the lead byte included. -/
def continued : (more : Nat) → (low high : UInt8) → (bits good : Nat) → Bytes → Except (Flaw × Nat) Nat
  | 0, _, _, bits, _, _ => .ok bits
  | _ + 1, _, _, _, good, [] => .error (.truncated, good)
  | more + 1, low, high, bits, good, b :: rest =>
    if low ≤ b ∧ b ≤ high then
      continued more 0x80 0xbf (bits * 64 + (b.toNat - 0x80)) (good + 1) rest
    else .error (.badContinuation, good)

/-- Decodes bytes of which `start` have gone before. -/
def decodeFrom (start : Nat) : Bytes → Except Fault (List Char)
  | [] => .ok []
  | b :: rest =>
    match lead b with
    | none => .error ⟨.badStart, b, start, 1⟩
    | some l =>
      match continued l.more l.low l.high l.bits 1 rest with
      | .error (flaw, width) => .error ⟨flaw, b, start, width⟩
      | .ok code =>
        match decodeFrom (start + 1 + l.more) (rest.drop l.more) with
        | .error f => .error f
        | .ok cs => .ok (Char.ofNat code :: cs)
termination_by bs => bs.length
decreasing_by simp only [List.length_cons, List.length_drop]; omega

def decode (bs : Bytes) : Except Fault (List Char) :=
  decodeFrom 0 bs

end Utf8

namespace Bytes

def ofText (s : String) : Bytes :=
  Utf8.encode s.toList

def text? (bs : Bytes) : Except Utf8.Fault String :=
  (Utf8.decode bs).map String.ofList

end Bytes

end ThreadLocal
