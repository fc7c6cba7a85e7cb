import Mathlib

/-!
# `libmincrypt/p256.c`

256-bit integers as eight 32-bit digits, least significant first, and multiplication modulo
the order or the field size of the curve. A failed assertion ends the computation.
-/

namespace ShieldTv.Libmincrypt.P256

open List

def secp256r1N : List UInt32 :=
  [0xfc632551, 0xf3b9cac2, 0xa7179e84, 0xbce6faad, -1, -1, 0, -1]

def secp256r1P : List UInt32 := [-1, -1, -1, 0, 0, 0, 1, -1]

def ddigit (x : Int) : Int := x % 2 ^ 64

def sddigit (x : Int) : Int := x.bmod (2 ^ 64)

/-- The loop of the functions below: `term` is what they add to the carry in each round, and
`fit` keeps the sum in the carry's type. -/
def carryLoop (fit : Int → Int) (term : UInt32 → UInt32 → Int) :
    Int → List UInt32 → List UInt32 → List UInt32 × Int
  | carry, c :: cs, a :: as =>
    let carry := fit (carry + term c a)
    let (digits, last) := carryLoop fit term (carry / 2 ^ 32) cs as
    (UInt32.ofInt carry :: digits, last)
  | carry, _, _ => ([], carry)

def accumulate (fit : Int → Int) (term : UInt32 → UInt32 → Int) (top : UInt32)
    (c a : List UInt32) : List UInt32 × UInt32 :=
  let (c, carry) := carryLoop fit term 0 c a
  (c, top + UInt32.ofInt carry)

def mulAdd (a : List UInt32) (b top : UInt32) (c : List UInt32) : List UInt32 × UInt32 :=
  accumulate ddigit (fun c a => c.toNat + a.toNat * b.toNat) top c a

def subM (MOD : List UInt32) (top : UInt32) (c : List UInt32) (mask : UInt32) :
    List UInt32 × UInt32 :=
  accumulate sddigit (fun c m => c.toNat - (m &&& mask).toNat) top c MOD

def addM (MOD : List UInt32) (top : UInt32) (c : List UInt32) (mask : UInt32) :
    List UInt32 × UInt32 :=
  accumulate ddigit (fun c m => c.toNat + (m &&& mask).toNat) top c MOD

def subTop (topA : UInt32) (a : List UInt32) (topC : UInt32) (c : List UInt32) :
    Option (List UInt32 × UInt32) :=
  let (c, borrow) := carryLoop sddigit (fun c a => c.toNat - a.toNat) 0 c a
  let borrow := sddigit (borrow + topC.toNat - topA.toNat)
  if borrow / 2 ^ 32 = 0 then some (c, UInt32.ofInt borrow) else none

/-- The multiplication, from the eight digits at `tmp + i` on. The first of them is final after
its round, and `top` is stored behind the others. -/
def mulLoop (a : List UInt32) : List UInt32 → List UInt32 → List UInt32
  | [], tmp => tmp
  | b :: bs, tmp =>
    let (tmp, top) := mulAdd a b 0 tmp
    tmp.take 1 ++ mulLoop a bs (tmp.drop 1 ++ [top])

/-- One round of the reduction, on `top` and the digits at `tmp + i`. -/
def reduceDigit (MOD : List UInt32) (top : UInt32) (tmp : List UInt32) : Option (List UInt32) := do
  let (reducer, topReducer) := mulAdd MOD top 0 (replicate 8 0)
  let (tmp, top) ← subTop topReducer reducer top tmp
  if top ≤ 1 then
    let (tmp, top) := subM MOD top tmp (~~~(top - 1))
    if top = 0 then some tmp else none
  else none

/-- The rounds of the reduction, from the last digit to the first. The last of the eight digits
a round leaves is the next `top`. -/
def reduceLoop (MOD high : List UInt32) : List UInt32 → Option (List UInt32)
  | [] => some high
  | digit :: tmp => do
    let tmp ← reduceLoop MOD high tmp
    reduceDigit MOD (tmp.getLastD 0) (digit :: tmp.dropLast)

/-- `p256_modmul` on the integers at `a`, `b` and `c`, which need not be different. -/
def p256Modmul {ι : Type} [DecidableEq ι] (MOD : List UInt32) (mem : ι → List UInt32) (a : ι)
    (topB : UInt32) (b c : ι) : Option (ι → List UInt32) := do
  let tmp := mulLoop (mem a) (mem b ++ [topB]) (replicate 8 0)
  let tmp ← reduceLoop MOD (tmp.drop 9) (tmp.take 9)
  let (tmp, borrow) := subM MOD 0 tmp (-1)
  let (tmp, _) := addM MOD 0 tmp borrow
  return Function.update mem c tmp

end ShieldTv.Libmincrypt.P256
