import ShieldTv.Libmincrypt.Proofs.Rsa
import ShieldTv.Libmincrypt.Sha256

/-!
# SHA-256 by the standard

The digest of the standard is stated over whole messages; the context holds what the blocks so
far come to and the bytes of the current one.
-/

namespace ShieldTv.Libmincrypt.Sha256

/-! ## The standard -/

/-- The first bits of the fraction of a root. -/
def fraction (n p : Nat) : UInt32 := UInt32.ofNat (Nat.nthRoot n (p * 2 ^ (32 * n)))

def primes : List Nat := (List.range 312).filter Nat.Prime

def rotr (n : Nat) (x : UInt32) : UInt32 := ⟨x.toBitVec.rotateRight n⟩

/-- The words `W` of a block. -/
def schedule (block : Bytes) (t : Nat) : UInt32 :=
  if t < 16 then UInt32.ofNat (bytesValue ((List.range 4).map fun j => block.getD (4 * t + j) 0))
  else
    let sigma0 x := rotr 7 x ^^^ rotr 18 x ^^^ x >>> 3
    let sigma1 x := rotr 17 x ^^^ rotr 19 x ^^^ x >>> 10
    sigma1 (schedule block (t - 2)) + schedule block (t - 7) +
      sigma0 (schedule block (t - 15)) + schedule block (t - 16)

def step (w : Nat → UInt32) (v : Words) (t : Nat) : Words :=
  let sum0 := rotr 2 v.a ^^^ rotr 13 v.a ^^^ rotr 22 v.a
  let sum1 := rotr 6 v.e ^^^ rotr 11 v.e ^^^ rotr 25 v.e
  let ch := (v.e &&& v.f) ^^^ (~~~v.e &&& v.g)
  let maj := (v.a &&& v.b) ^^^ (v.a &&& v.c) ^^^ (v.b &&& v.c)
  let t1 := v.h + sum1 + ch + fraction 3 (primes.getD t 0) + w t
  ⟨t1 + (sum0 + maj), v.a, v.b, v.c, v.d + t1, v.e, v.f, v.g⟩

def compress (v : Words) (block : Bytes) : Words :=
  v.add ((List.range 64).foldl (step (schedule block)) v)

def initialHash : Words :=
  ⟨fraction 2 2, fraction 2 3, fraction 2 5, fraction 2 7, fraction 2 11, fraction 2 13,
    fraction 2 17, fraction 2 19⟩

/-- The hash after `i` blocks of a padded message. -/
def chain (m : Bytes) : Nat → Words
  | 0 => initialHash
  | i + 1 => compress (chain m i) ((m.drop (64 * i)).take 64)

def pad (m : Bytes) : Bytes :=
  m ++ 0x80 :: (List.replicate ((119 - m.length % 64) % 64) 0 ++ bigEndian 8 (8 * m.length))

def sha256 (m : Bytes) : Bytes :=
  (chain (pad m) ((pad m).length / 64)).toList.flatMap fun word => bigEndian 4 word.toNat

open List

/-! ## One block -/

theorem k_eq : k = primes.map (fraction 3) := by
  decide +kernel

theorem schedule_input {t : Nat} (ht : t < 16) (block : Bytes) :
    schedule block t = loadWord block t := by
  rw [schedule, if_pos ht, loadWord]
  congr 1
  simp [range_succ, bytesValue_four]

theorem extend_schedule (block : Bytes) (n : Nat) :
    (range' 16 n).foldl extend ((range 16).map (loadWord block)) =
      (range (16 + n)).map (schedule block) := by
  induction n with
  | zero => exact map_congr_left fun t ht => (schedule_input (mem_range.mp ht) block).symm
  | succ n ih =>
    have hget : ∀ j, 0 < j → ((range (16 + n)).map (schedule block)).getD (16 + n - j) 0 =
        schedule block (16 + n - j) := by
      intro j hj
      simp [getD_eq_getElem?_getD, hj]
    rw [range'_concat, foldl_append, ih, ← Nat.add_assoc, range_succ, map_append, one_mul]
    simp only [foldl_cons, foldl_nil, extend, hget 2 two_pos, hget 7 (by omega),
      hget 15 (by omega), hget 16 (by omega)]
    congr 2
    rw [schedule.eq_def _ (16 + n), if_neg (by omega)]
    change _ = (ror _ 17 ^^^ ror _ 19 ^^^ _) + _ + (ror _ 7 ^^^ ror _ 18 ^^^ _) + _
    ac_rfl

theorem transform_state (ctx : Ctx) :
    (transform ctx).state = compress ctx.state ctx.buf.toList := by
  have hround : ∀ v, ∀ t ∈ range 64,
      round ((range (16 + 48)).map (schedule ctx.buf.toList)) v t =
        step (schedule ctx.buf.toList) v t := by
    intro v t ht
    have hw : ((range (16 + 48)).map (schedule ctx.buf.toList)).getD t 0 =
        schedule ctx.buf.toList t := by
      simp [getD_eq_getElem?_getD, mem_range.mp ht]
    have hk : k.getD t 0 = fraction 3 (primes.getD t 0) := by
      rw [k_eq, getD_eq_getElem?_getD, getD_eq_getElem?_getD, getElem?_map]
      cases primes[t]? <;> rfl
    rw [round, step, hk, hw]
    rfl
  simp only [transform, extend_schedule, compress, foldl_ext _ _ _ hround]

/-! ## A message -/

/-- `n` bytes are counted, and the first `k` bytes of `m` are in the hash or in the
buffer. -/
structure Absorbed (m : Bytes) (n k : Nat) (ctx : Ctx) : Prop where
  count : ctx.count = UInt64.ofNat n
  state : ctx.state = chain m (k / 64)
  buf : ctx.buf.toList.take (k % 64) = (m.drop (64 * (k / 64))).take (k % 64)

variable {m data rest : Bytes} {n k : Nat} {ctx : Ctx}

theorem Absorbed.putByte (h : Absorbed m n k ctx) {byte : UInt8} (hm : m[k]? = some byte) :
    let ctx' := { ctx with buf := ctx.buf.setIfInBounds (k % 64) byte }
    Absorbed m n (k + 1) (if k % 64 + 1 = 64 then transform ctx' else ctx') := by
  intro ctx'
  have hlt : k % 64 < 64 := Nat.mod_lt _ (by omega)
  have hbuf : ctx'.buf.toList.take (k % 64 + 1) =
      (m.drop (64 * (k / 64))).take (k % 64 + 1) := by
    rw [take_add_one, take_add_one, getElem?_drop, Nat.div_add_mod, hm, ← h.buf]
    simp [ctx', hlt, take_set_of_le]
  split
  case isTrue hfull =>
    have hdiv : (k + 1) / 64 = k / 64 + 1 := by omega
    have hmod : (k + 1) % 64 = 0 := by omega
    rw [hfull, take_of_length_le (by simp)] at hbuf
    refine ⟨h.count, ?_, by simp [hmod]⟩
    rw [transform_state, hbuf, hdiv, chain, ← h.state]
  case isFalse hpart =>
    have hdiv : (k + 1) / 64 = k / 64 := by omega
    have hmod : (k + 1) % 64 = k % 64 + 1 := by omega
    rw [← hmod, ← hdiv] at hbuf
    exact ⟨h.count, hdiv ▸ h.state, hbuf⟩

theorem Absorbed.updateLoop (h : Absorbed m n k ctx) (hm : m.drop k = data ++ rest) :
    Absorbed m n (k + data.length) (updateLoop ctx (k % 64) data) := by
  induction data generalizing k ctx with
  | nil => exact h
  | cons byte data ih =>
    have hbyte : m[k]? = some byte := by
      rw [← head?_drop, hm]
      rfl
    have hrest := ih (h.putByte hbyte) (by rw [← drop_drop, hm]; rfl)
    rw [length_cons, Nat.add_comm data.length, ← Nat.add_assoc, Sha256.updateLoop]
    split at hrest
    case isTrue hfull =>
      rw [if_pos hfull]
      rwa [show (k + 1) % 64 = 0 by omega] at hrest
    case isFalse hpart =>
      rw [if_neg hpart]
      rwa [show (k + 1) % 64 = k % 64 + 1 by omega] at hrest

theorem place_eq (n : Nat) : (UInt64.ofNat n &&& 63).toNat = n % 64 := by
  rw [UInt64.toNat_and, UInt64.toNat_ofNat']
  change _ &&& (2 ^ 6 - 1) = _
  rw [Nat.and_two_pow_sub_one_eq_mod]
  omega

theorem Absorbed.update (h : Absorbed m k k ctx) (hm : m.drop k = data ++ rest) :
    Absorbed m (k + data.length) (k + data.length) (update ctx data) := by
  have hcount : Absorbed m (k + data.length) k
      { ctx with count := ctx.count + UInt64.ofNat data.length } :=
    ⟨by rw [h.count, UInt64.ofNat_add], h.state, h.buf⟩
  rw [Sha256.update, h.count, place_eq, ← h.count]
  exact hcount.updateLoop hm

theorem absorbed_foldl {chunks : List Bytes} (h : Absorbed m k k ctx)
    (hm : m.drop k = chunks.flatten ++ rest) :
    Absorbed m (k + chunks.flatten.length) (k + chunks.flatten.length)
      (chunks.foldl Sha256.update ctx) := by
  induction chunks generalizing k ctx with
  | nil => exact h
  | cons data chunks ih =>
    rw [flatten_cons, append_assoc] at hm
    rw [flatten_cons, length_append, ← Nat.add_assoc]
    apply ih (h.update hm)
    rw [← drop_drop, hm, drop_left]

theorem padLoop_spec {zeros fuel : Nat} (h : Absorbed m k k ctx)
    (hm : m.drop k = replicate zeros 0 ++ rest) (hplace : (k + zeros) % 64 = 56)
    (hlt : zeros < 64) (hfuel : zeros < fuel) :
    ∃ ctx', padLoop fuel ctx = some ctx' ∧ Absorbed m (k + zeros) (k + zeros) ctx' := by
  induction fuel generalizing k zeros ctx with
  | zero => omega
  | succ fuel ih =>
    have hdone : ctx.count &&& 63 = 56 ↔ k % 64 = 56 := by
      rw [h.count, ← UInt64.toNat_inj, place_eq]
      rfl
    rw [padLoop]
    cases zeros with
    | zero => exact ⟨ctx, if_neg (not_not.mpr (hdone.mpr hplace)), h⟩
    | succ zeros =>
      have hnext : m.drop k = [0] ++ (replicate zeros 0 ++ rest) := hm
      rw [if_pos (hdone.not.mpr (by omega)), ← Nat.add_assoc, Nat.add_right_comm]
      apply ih (h.update hnext)
      · rw [← drop_drop, hnext, drop_left]
      · rw [length_singleton]
        omega
      · omega
      · omega

theorem wordBytes_eq (word : UInt32) : wordBytes word = bigEndian 4 word.toNat := by
  simp [wordBytes, bigEndian, Nat.div_div_eq_div_mul]

theorem flatten_lengthChunks (n : Nat) :
    (lengthChunks (UInt64.ofNat n * 8)).flatten = bigEndian 8 (8 * n) := by
  simp [lengthChunks, range_succ, bigEndian, Nat.div_div_eq_div_mul, ← UInt8.toNat_inj,
    Nat.shiftRight_eq_div_pow]
  omega

theorem init_absorbed (m : Bytes) (ctx : Ctx) : Absorbed m 0 0 (init ctx) := by
  have hstate : initialState = initialHash := by
    decide +kernel
  exact ⟨rfl, hstate, by simp⟩

/-- Every way to cut a message into chunks gives its digest. -/
theorem final_eq_sha256 (ctx : Ctx) (chunks : List Bytes) :
    final (chunks.foldl Sha256.update (init ctx)) = some (sha256 chunks.flatten) := by
  have hmessage := absorbed_foldl (init_absorbed (pad chunks.flatten) ctx) rfl
  generalize chunks.foldl Sha256.update (init ctx) = ctx at hmessage
  generalize chunks.flatten = m at hmessage
  rw [Nat.zero_add] at hmessage
  have hrest : (pad m).drop m.length = [0x80] ++ _ := drop_left
  have hmark := hmessage.update hrest
  obtain ⟨ctx', hpad, hzeros⟩ := padLoop_spec hmark (by rw [← drop_drop, hrest]; rfl)
    (by rw [length_singleton]; omega) (Nat.mod_lt _ (by omega)) (Nat.mod_lt _ (by omega))
  have hlast : (pad m).drop (m.length + 1 + (119 - m.length % 64) % 64) =
      (lengthChunks (UInt64.ofNat m.length * 8)).flatten ++ [] := by
    rw [flatten_lengthChunks, ← drop_drop, ← drop_drop, hrest]
    simp
  have hlength := absorbed_foldl hzeros hlast
  have hblocks : (pad m).length = m.length + 1 + (119 - m.length % 64) % 64 + 8 := by
    simp [pad]
    omega
  simp only [final, hmessage.count, hpad, Option.bind_eq_bind, Option.bind_some, hlength.state,
    flatten_lengthChunks, length_bigEndian, length_singleton, sha256, hblocks]
  exact congrArg some (flatMap_congr fun word _ => wordBytes_eq word)

end ShieldTv.Libmincrypt.Sha256
