import ShieldTv.Libmincrypt.Rsa

/-!
# `libmincrypt/sha256.c`

A context is the bytes counted so far, a buffer of one block and the eight words of the
hash.
-/

namespace ShieldTv.Libmincrypt.Sha256

structure Words where
  (a b c d e f g h : UInt32)
deriving DecidableEq

structure Ctx where
  count : UInt64
  buf : Vector UInt8 64
  state : Words

def ror (value bits : UInt32) : UInt32 := value >>> bits ||| value <<< (32 - bits)

def k : List UInt32 :=
  [0x428a2f98, 0x71374491, 0xb5c0fbcf, 0xe9b5dba5, 0x3956c25b, 0x59f111f1, 0x923f82a4, 0xab1c5ed5,
    0xd807aa98, 0x12835b01, 0x243185be, 0x550c7dc3, 0x72be5d74, 0x80deb1fe, 0x9bdc06a7, 0xc19bf174,
    0xe49b69c1, 0xefbe4786, 0x0fc19dc6, 0x240ca1cc, 0x2de92c6f, 0x4a7484aa, 0x5cb0a9dc, 0x76f988da,
    0x983e5152, 0xa831c66d, 0xb00327c8, 0xbf597fc7, 0xc6e00bf3, 0xd5a79147, 0x06ca6351, 0x14292967,
    0x27b70a85, 0x2e1b2138, 0x4d2c6dfc, 0x53380d13, 0x650a7354, 0x766a0abb, 0x81c2c92e, 0x92722c85,
    0xa2bfe8a1, 0xa81a664b, 0xc24b8b70, 0xc76c51a3, 0xd192e819, 0xd6990624, 0xf40e3585, 0x106aa070,
    0x19a4c116, 0x1e376c08, 0x2748774c, 0x34b0bcb5, 0x391c0cb3, 0x4ed8aa4a, 0x5b9cca4f, 0x682e6ff3,
    0x748f82ee, 0x78a5636f, 0x84c87814, 0x8cc70208, 0x90befffa, 0xa4506ceb, 0xbef9a3f7, 0xc67178f2]

/-- The bytes at `4 * t`, most significant first. -/
def loadWord (buf : Bytes) (t : Nat) : UInt32 :=
  UInt32.ofNat ((buf.getD (4 * t) 0).toNat * 2 ^ 24 + (buf.getD (4 * t + 1) 0).toNat * 2 ^ 16 +
    (buf.getD (4 * t + 2) 0).toNat * 2 ^ 8 + (buf.getD (4 * t + 3) 0).toNat)

def extend (w : List UInt32) (t : Nat) : List UInt32 :=
  let s0 := ror (w.getD (t - 15) 0) 7 ^^^ ror (w.getD (t - 15) 0) 18 ^^^ w.getD (t - 15) 0 >>> 3
  let s1 := ror (w.getD (t - 2) 0) 17 ^^^ ror (w.getD (t - 2) 0) 19 ^^^ w.getD (t - 2) 0 >>> 10
  w ++ [w.getD (t - 16) 0 + s0 + w.getD (t - 7) 0 + s1]

def round (w : List UInt32) (v : Words) (t : Nat) : Words :=
  let s0 := ror v.a 2 ^^^ ror v.a 13 ^^^ ror v.a 22
  let maj := (v.a &&& v.b) ^^^ (v.a &&& v.c) ^^^ (v.b &&& v.c)
  let t2 := s0 + maj
  let s1 := ror v.e 6 ^^^ ror v.e 11 ^^^ ror v.e 25
  let ch := (v.e &&& v.f) ^^^ (~~~v.e &&& v.g)
  let t1 := v.h + s1 + ch + k.getD t 0 + w.getD t 0
  ⟨t1 + t2, v.a, v.b, v.c, v.d + t1, v.e, v.f, v.g⟩

def Words.add (v v' : Words) : Words :=
  ⟨v.a + v'.a, v.b + v'.b, v.c + v'.c, v.d + v'.d, v.e + v'.e, v.f + v'.f, v.g + v'.g, v.h + v'.h⟩

def transform (ctx : Ctx) : Ctx :=
  let w := (List.range' 16 48).foldl extend ((List.range 16).map (loadWord ctx.buf.toList))
  { ctx with state := ctx.state.add ((List.range 64).foldl (round w) ctx.state) }

def initialState : Words :=
  ⟨0x6a09e667, 0xbb67ae85, 0x3c6ef372, 0xa54ff53a, 0x510e527f, 0x9b05688c, 0x1f83d9ab, 0x5be0cd19⟩

/-- The buffer is left as it is. -/
def init (ctx : Ctx) : Ctx := { ctx with state := initialState, count := 0 }

def updateLoop : Ctx → Nat → Bytes → Ctx
  | ctx, _, [] => ctx
  | ctx, i, byte :: data =>
    let ctx := { ctx with buf := ctx.buf.setIfInBounds i byte }
    if i + 1 = 64 then updateLoop (transform ctx) 0 data else updateLoop ctx (i + 1) data

def update (ctx : Ctx) (data : Bytes) : Ctx :=
  updateLoop { ctx with count := ctx.count + UInt64.ofNat data.length }
    (ctx.count &&& 63).toNat data

/-- `while ((ctx->count & 63) != 56)` -/
def padLoop : Nat → Ctx → Option Ctx
  | 0, _ => none
  | fuel + 1, ctx => if ctx.count &&& 63 ≠ 56 then padLoop fuel (update ctx [0]) else some ctx

def Words.toList (v : Words) : List UInt32 := [v.a, v.b, v.c, v.d, v.e, v.f, v.g, v.h]

def lengthChunks (cnt : UInt64) : List Bytes :=
  (List.range 8).map fun i => [(cnt >>> UInt64.ofNat ((7 - i) * 8)).toUInt8]

def final (ctx : Ctx) : Option Bytes := do
  let ctx' ← padLoop 64 (update ctx [0x80])
  let ctx' := (lengthChunks (ctx.count * 8)).foldl update ctx'
  some (ctx'.state.toList.flatMap wordBytes)

end ShieldTv.Libmincrypt.Sha256
