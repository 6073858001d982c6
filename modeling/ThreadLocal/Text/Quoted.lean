import ThreadLocal.Text.Utf8

/-!
Quoted display of a text: single quotes unless only single quotes occur in it, backslash escapes for the
quote, the backslash and whatever does not print.
-/

namespace ThreadLocal
namespace Quoted

/-- First and last code point of each stretch of characters that do not print: controls, separators other
than the space, format characters, surrogates, private use and noncharacters. -/
def unprintable : List (Nat × Nat) := [
  (0x00, 0x1f), (0x7f, 0xa0), (0xad, 0xad), (0x600, 0x605), (0x61c, 0x61c), (0x6dd, 0x6dd), (0x70f, 0x70f),
  (0x890, 0x891), (0x8e2, 0x8e2), (0x1680, 0x1680), (0x180e, 0x180e), (0x2000, 0x200f), (0x2028, 0x202f),
  (0x205f, 0x206f), (0x3000, 0x3000), (0xd800, 0xf8ff), (0xfdd0, 0xfdef), (0xfeff, 0xfeff), (0xfff0, 0xfffb),
  (0xfffe, 0xffff), (0x110bd, 0x110bd), (0x110cd, 0x110cd), (0x13430, 0x13438), (0x1bca0, 0x1bca3),
  (0x1d173, 0x1d17a), (0x1fffe, 0x1ffff), (0xe0000, 0xe00ff), (0xe01f0, 0x10ffff)]

def isPrintable (c : Char) : Bool :=
  unprintable.all fun r => c.toNat < r.1 || r.2 < c.toNat

/-- A text is put between single quotes unless it holds one and no double quote. -/
def quote (cs : List Char) : Char :=
  if cs.contains '\'' && !cs.contains '"' then '"' else '\''

def escape (mark : Char) (c : Char) : List Char :=
  if c = mark ∨ c = '\\' then ['\\', c]
  else if c = '\n' then ['\\', 'n']
  else if c = '\r' then ['\\', 'r']
  else if c = '\t' then ['\\', 't']
  else if isPrintable c then [c]
  else if c.toNat < 0x100 then '\\' :: 'x' :: Utf8.hexDigits 2 c.toNat
  else if c.toNat < 0x10000 then '\\' :: 'u' :: Utf8.hexDigits 4 c.toNat
  else '\\' :: 'U' :: Utf8.hexDigits 8 c.toNat

def encode (cs : List Char) : List Char :=
  quote cs :: cs.flatMap (escape (quote cs)) ++ [quote cs]

end Quoted

/-- The display of `s` between quotes. -/
def quoted (s : String) : String :=
  String.ofList (Quoted.encode s.toList)

end ThreadLocal
