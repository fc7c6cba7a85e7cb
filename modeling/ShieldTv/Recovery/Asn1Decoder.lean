import ShieldTv.Lib.Bytes
import ShieldTv.Lib.Tracked

/-!
# The DER reader of recovery

`asn1_decoder.cpp`: a context is a window of memory, and every function moves or
narrows the window. Memory is a function of the address; the addresses that are
read are recorded. A `NULL` or `false` result ends the computation, as no caller
goes on after one.
-/

namespace ShieldTv.Recovery.Asn1

open Lib

structure Context where
  length : Nat
  p : Int
  appType : Nat := 0

/-- Memory as the process sees it. -/
abbrev Mem := Int → UInt8

def maskConstructed : UInt8 := 0xE0
def maskTag : UInt8 := 0x7F
def maskAppType : UInt8 := 0x1F
def tagOctetString : UInt8 := 0x04
def tagSequence : UInt8 := 0x30
def tagSet : UInt8 := 0x31
def tagConstructed : UInt8 := 0xA0

/-- `byte & mask`, where a missing byte is `-1`. -/
def masked (byte : Option UInt8) (mask : UInt8) : UInt8 :=
  match byte with
  | none => mask
  | some b => b &&& mask

section

variable (mem : Mem)

def contextNew (buffer : Int) (length : Nat) : Context := { p := buffer, length := length }

def peekByte (ctx : Context) : Tracked Int (Option UInt8) :=
  if ctx.length ≤ 0 then pure none
  else do
    let byte ← Tracked.load ctx.p (mem ctx.p)
    pure (some byte)

def getByte (ctx : Context) : Tracked Int (Option UInt8 × Context) :=
  if ctx.length ≤ 0 then pure (none, ctx)
  else do
    let byte ← Tracked.load ctx.p (mem ctx.p)
    pure (some byte, { ctx with p := ctx.p + 1, length := ctx.length - 1 })

def skipBytes (ctx : Context) (numSkip : Nat) : Tracked Int Context :=
  if ctx.length < numSkip then Tracked.fail
  else pure { ctx with p := ctx.p + numSkip, length := ctx.length - numSkip }

variable (word : Nat)

def lengthOctets : Nat → Nat → Context → Tracked Int (Nat × Context)
  | 0, length, ctx => pure (length, ctx)
  | numOctets + 1, length, ctx => do
    let (byte, ctx) ← getByte mem ctx
    match byte with
    | none => Tracked.fail
    | some byte => lengthOctets numOctets ((length * 256 + byte.toNat) % 2 ^ (8 * word)) ctx

/-- `decode_length`, where `word` is `sizeof(size_t)`. -/
def decodeLength (ctx : Context) : Tracked Int (Nat × Context) := do
  let (numOctets, ctx) ← getByte mem ctx
  match numOctets with
  | none => Tracked.fail
  | some numOctets =>
    if numOctets &&& 0x80 = 0 then pure (numOctets.toNat, ctx)
    else if word ≤ (numOctets &&& maskTag).toNat then Tracked.fail
    else lengthOctets mem word (numOctets &&& maskTag).toNat 0 ctx

/-- The end of the functions that open an element: the window of its contents,
beside the context it was opened in. -/
def openElement (ctx : Context) (appType : Nat) : Tracked Int (Context × Context) := do
  let (length, ctx) ← decodeLength mem word ctx
  if ctx.length < length then Tracked.fail
  else pure ({ contextNew ctx.p length with appType := appType }, ctx)

def constructedGet (ctx : Context) : Tracked Int (Context × Context) := do
  let (type, ctx) ← getByte mem ctx
  match type with
  | none => Tracked.fail
  | some type =>
    if type &&& maskConstructed ≠ tagConstructed then Tracked.fail
    else openElement mem word ctx (type &&& maskAppType).toNat

/-- The loop of `asn1_constructed_skip_all`. A round consumes a byte, so the length of
the window bounds the rounds. -/
def skipLoop : Nat → Context → Tracked Int Context
  | 0, _ => Tracked.fail
  | fuel + 1, ctx => do
    match ← peekByte mem ctx with
    | none => Tracked.fail
    | some byte =>
      if byte &&& maskConstructed = tagConstructed then do
        let ctx ← skipBytes ctx 1
        let (length, ctx) ← decodeLength mem word ctx
        let ctx ← skipBytes ctx length
        skipLoop fuel ctx
      else pure ctx

def constructedSkipAll (ctx : Context) : Tracked Int Context :=
  skipLoop mem word (ctx.length + 1) ctx

def taggedGet (tag : UInt8) (ctx : Context) : Tracked Int (Context × Context) := do
  let (byte, ctx) ← getByte mem ctx
  if masked byte maskTag ≠ tag then Tracked.fail
  else openElement mem word ctx 0

def sequenceGet (ctx : Context) : Tracked Int (Context × Context) :=
  taggedGet mem word tagSequence ctx

def setGet (ctx : Context) : Tracked Int (Context × Context) := taggedGet mem word tagSet ctx

def sequenceNext (ctx : Context) : Tracked Int Context := do
  let (byte, ctx) ← getByte mem ctx
  match byte with
  | none => Tracked.fail
  | some _ => do
    let (length, ctx) ← decodeLength mem word ctx
    skipBytes ctx length

def octetStringGet (ctx : Context) : Tracked Int (Int × Nat) := do
  let (byte, ctx) ← getByte mem ctx
  if byte ≠ some tagOctetString then Tracked.fail
  else do
    let (length, ctx) ← decodeLength mem word ctx
    if length = 0 ∨ ctx.length < length then Tracked.fail
    else pure (ctx.p, length)

end

end ShieldTv.Recovery.Asn1
