import ShieldTv.Lib.Bytes

/-!
# `libutils/Unicode.cpp`

The conversions between UTF-16 and UTF-8, the functions that say how much room they need, and the
comparison of 16-bit strings.  A pointer into the source is the list of the units that are left.
-/

namespace ShieldTv.Libutils.Unicode

def kByteMask : UInt32 := 0xBF

def kByteMark : UInt32 := 0x80

def kUnicodeSurrogateStart : UInt32 := 0xD800

def kUnicodeSurrogateEnd : UInt32 := 0xDFFF

def kUnicodeMaxCodepoint : UInt32 := 0x10FFFF

/-- `kFirstByteMark`, by the number of bytes. -/
def kFirstByteMark : Nat → UInt32
  | 2 => 0xC0
  | 3 => 0xE0
  | 4 => 0xF0
  | _ => 0

/-- The number of bytes of a character, 0 if it is not one. -/
def utf32CodepointUtf8Length (srcChar : UInt32) : Nat :=
  if srcChar < 0x80 then 1
  else if srcChar < 0x800 then 2
  else if srcChar < 0x10000 then
    if srcChar < kUnicodeSurrogateStart ∨ srcChar > kUnicodeSurrogateEnd then 3 else 0
  else if srcChar ≤ kUnicodeMaxCodepoint then 4
  else 0

/-- The bytes are written from the last one to the first. -/
def writeBytes (mark : UInt32) : Nat → UInt32 → Bytes → Bytes
  | 0, _, after => after
  | 1, srcChar, after => (srcChar ||| mark).toUInt8 :: after
  | bytes + 2, srcChar, after =>
    writeBytes mark (bytes + 1) (srcChar >>> 6)
      (((srcChar ||| kByteMark) &&& kByteMask).toUInt8 :: after)

def utf32CodepointToUtf8 (srcChar : UInt32) (bytes : Nat) : Bytes :=
  writeBytes (kFirstByteMark bytes) bytes srcChar []

def isHighSurrogate (unit : UInt16) : Bool := unit &&& 0xFC00 == 0xD800

def isLowSurrogate (unit : UInt16) : Bool := unit &&& 0xFC00 == 0xDC00

def pairCodepoint (high low : UInt16) : UInt32 :=
  (((high.toUInt32 - 0xD800) <<< 10) ||| (low.toUInt32 - 0xDC00)) + 0x10000

def encode (utf32 : UInt32) : Bytes :=
  utf32CodepointToUtf8 utf32 (utf32CodepointUtf8Length utf32)

/-- The loop of `utf16_to_utf8`: what it writes, without the terminator. -/
def utf16ToUtf8Loop : List UInt16 → Bytes
  | [] => []
  | [unit] => encode unit.toUInt32
  | unit :: next :: rest =>
    if isHighSurrogate unit && isLowSurrogate next then
      encode (pairCodepoint unit next) ++ utf16ToUtf8Loop rest
    else encode unit.toUInt32 ++ utf16ToUtf8Loop (next :: rest)

/-- What `utf16_to_utf8` writes; nothing at all for an empty source. -/
def utf16ToUtf8 (src : List UInt16) : Bytes :=
  if src = [] then [] else utf16ToUtf8Loop src ++ [0]

/-- The loop of `utf16_to_utf8_length`.  To look at the unit after a high surrogate it moves on
to it, and there it stays if the two are no pair. -/
def utf16ToUtf8LengthLoop : List UInt16 → Nat
  | [] => 0
  | [unit] => utf32CodepointUtf8Length unit.toUInt32
  | unit :: next :: rest =>
    if isHighSurrogate unit then
      if isLowSurrogate next then 4 + utf16ToUtf8LengthLoop rest
      else utf32CodepointUtf8Length next.toUInt32 + utf16ToUtf8LengthLoop rest
    else utf32CodepointUtf8Length unit.toUInt32 + utf16ToUtf8LengthLoop (next :: rest)

def utf16ToUtf8Length (src : List UInt16) : Int :=
  if src = [] then -1 else utf16ToUtf8LengthLoop src

/-! ## Comparison -/

/-- What is left of one string only decides by its next unit. -/
def strzcmp16 : List UInt16 → List UInt16 → Int
  | u1 :: s1, u2 :: s2 =>
    let d : Int := u1.toNat - u2.toNat
    if d ≠ 0 then d else strzcmp16 s1 s2
  | [], u2 :: _ => 0 - u2.toNat
  | u1 :: _, [] => u1.toNat - 0
  | [], [] => 0

end ShieldTv.Libutils.Unicode
