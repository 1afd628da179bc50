import Ssdb.Library.Base128
import Ssdb.Util.Bytes

namespace Coding

def byte (n : ℕ) : Byte := Base128.byte n

def encodeFixed32 (value : UInt32) : Bytes := (FixedWidth.bigEndian 256 4 value.toNat).reverse

def encodeFixed64 (value : UInt64) : Bytes := Endian.memory value

def decodeFixed32 (p : Bytes) : UInt32 := UInt32.ofNat (FixedWidth.value 256 (p.take 4).reverse)

def decodeFixed64 (p : Bytes) : UInt64 := Endian.ofMemory (p.take 8)

def encodeVarint32 (v : UInt32) : Bytes :=
  if v < (1 : UInt32) <<< 7 then
    [byte v.toNat]
  else if v < (1 : UInt32) <<< 14 then
    [byte (v ||| 128).toNat, byte (v >>> 7).toNat]
  else if v < (1 : UInt32) <<< 21 then
    [byte (v ||| 128).toNat, byte (v >>> 7 ||| 128).toNat, byte (v >>> 14).toNat]
  else if v < (1 : UInt32) <<< 28 then
    [byte (v ||| 128).toNat, byte (v >>> 7 ||| 128).toNat, byte (v >>> 14 ||| 128).toNat,
      byte (v >>> 21).toNat]
  else
    [byte (v ||| 128).toNat, byte (v >>> 7 ||| 128).toNat, byte (v >>> 14 ||| 128).toNat,
      byte (v >>> 21 ||| 128).toNat, byte (v >>> 28).toNat]

/-- The loop of `EncodeVarint64`; its callers give it ten bytes to write to. -/
def encodeVarint64Loop : ℕ → UInt64 → Bytes
  | 0, _ => []
  | n + 1, v =>
    if 128 ≤ v then byte (v &&& 127 ||| 128).toNat :: encodeVarint64Loop n (v >>> 7)
    else [byte v.toNat]

def encodeVarint64 (v : UInt64) : Bytes := encodeVarint64Loop 10 v

def varintLengthLoop : ℕ → UInt64 → ℕ → ℕ
  | 0, _, len => len
  | n + 1, v, len => if 128 ≤ v then varintLengthLoop n (v >>> 7) (len + 1) else len

def varintLength (v : UInt64) : ℕ := varintLengthLoop 9 v 1

/-- The loops of `GetVarint32PtrFallback` and `GetVarint64Ptr`, which differ in the word they
read into and in the last shift. -/
def getVarintLoop (w last : ℕ) : ℕ → BitVec w → Bytes → Option (BitVec w × Bytes)
  | _, _, [] => none
  | shift, result, b :: p =>
    if shift ≤ last then
      if BitVec.ofNat w b.val &&& 128#w ≠ 0#w then
        getVarintLoop w last (shift + 7) (result ||| (BitVec.ofNat w b.val &&& 127#w) <<< shift) p
      else some (result ||| BitVec.ofNat w b.val <<< shift, p)
    else none

def getVarint32PtrFallback (p : Bytes) : Option (UInt32 × Bytes) :=
  (getVarintLoop 32 28 0 0 p).map fun r => (UInt32.ofBitVec r.1, r.2)

def getVarint32 (input : Bytes) : Option (UInt32 × Bytes) :=
  match input with
  | b :: p =>
    if UInt32.ofNat b.val &&& 128 = 0 then some (UInt32.ofNat b.val, p)
    else getVarint32PtrFallback input
  | [] => getVarint32PtrFallback input

def getVarint64 (input : Bytes) : Option (UInt64 × Bytes) :=
  (getVarintLoop 64 63 0 0 input).map fun r => (UInt64.ofBitVec r.1, r.2)

def lengthPrefixedSlice (value : Bytes) : Bytes :=
  encodeVarint32 (UInt32.ofNat value.length) ++ value

def getLengthPrefixedSlice (input : Bytes) : Option (Bytes × Bytes) :=
  match getVarint32 input with
  | some (len, input) =>
    if len.toNat ≤ input.length then some (input.take len.toNat, input.drop len.toNat) else none
  | none => none

theorem or_128 (n : ℕ) : byte (n ||| 128) = Base128.byte (n % 128 + 128) := by
  have hmod := Nat.or_mod_two_pow (a := n) (b := 128) (n := 8)
  have hsmall : ∀ m : Fin 256, m.val ||| 128 = m.val % 128 + 128 := by decide +kernel
  have h := hsmall ⟨n % 256, Nat.mod_lt n (by decide)⟩
  change (n ||| 128) % 256 = (n % 256 ||| 128) at hmod
  change (n % 256 ||| 128) = n % 256 % 128 + 128 at h
  refine Fin.ext ?_
  change (n ||| 128) % 256 = (n % 128 + 128) % 256
  rw [hmod, h]
  omega

theorem and_128 {b : Byte} (w : ℕ) (hw : 8 ≤ w) :
    BitVec.ofNat w b.val &&& 128#w = 0#w ↔ b.val < 128 := by
  have hpow : 2 ^ 8 ≤ 2 ^ w := Nat.pow_le_pow_right (by decide) hw
  have hb := b.isLt
  have hsmall : ∀ c : Fin 256, c.val &&& 128 = 0 ↔ c.val < 128 := by decide +kernel
  rw [← BitVec.toNat_inj, BitVec.toNat_and, BitVec.toNat_ofNat, BitVec.toNat_ofNat,
    BitVec.toNat_ofNat, Nat.mod_eq_of_lt (by omega), Nat.mod_eq_of_lt (by omega), Nat.zero_mod]
  exact hsmall b

theorem and_127 {b : Byte} (w : ℕ) (hw : 8 ≤ w) :
    (BitVec.ofNat w b.val &&& 127#w).toNat = b.val % 128 := by
  have hpow : 2 ^ 8 ≤ 2 ^ w := Nat.pow_le_pow_right (by decide) hw
  have hb := b.isLt
  rw [BitVec.toNat_and, BitVec.toNat_ofNat, BitVec.toNat_ofNat, Nat.mod_eq_of_lt (by omega),
    Nat.mod_eq_of_lt (by omega)]
  exact Nat.and_two_pow_sub_one_eq_mod b.val 7

theorem or_shift {w s n : ℕ} (hs : s ≤ w) (hn : n < 2 ^ s) (v : BitVec w) :
    BitVec.ofNat w n ||| v <<< s = BitVec.ofNat w (n + 2 ^ s * v.toNat) := by
  have hsplit : 2 ^ w = 2 ^ (w - s) * 2 ^ s := by rw [← pow_add, Nat.sub_add_cancel hs]
  have hmod : v.toNat * 2 ^ s % 2 ^ w = v.toNat % 2 ^ (w - s) * 2 ^ s := by
    rw [hsplit, Nat.mul_mod_mul_right]
  have hlt : n + v.toNat % 2 ^ (w - s) * 2 ^ s < 2 ^ w := by
    have hm := Nat.mul_le_mul_right (2 ^ s) (Nat.mod_lt v.toNat (Nat.two_pow_pos (w - s)))
    rw [Nat.succ_mul, ← hsplit] at hm
    exact (Nat.add_comm _ _).trans_lt ((Nat.add_lt_add_left hn _).trans_le hm)
  have hn' : n < 2 ^ w := hn.trans_le (Nat.pow_le_pow_right (by decide) hs)
  apply BitVec.eq_of_toNat_eq
  rw [BitVec.toNat_or, BitVec.toNat_shiftLeft, BitVec.toNat_ofNat, BitVec.toNat_ofNat,
    Nat.shiftLeft_eq, Nat.mul_comm (2 ^ s), hmod, Nat.mod_eq_of_lt hn', Endian.or_eq_add s hn,
    Nat.add_mod, hmod, Nat.mod_eq_of_lt hn', Nat.mod_eq_of_lt hlt]

theorem getVarintLoop_eq {w last k : ℕ} (hw : 8 ≤ w) (hlast : last < w)
    (hk : ∀ i, 7 * i ≤ last ↔ i < k) (p : Bytes) {i : ℕ} (n : ℕ) (hi : i ≤ k)
    (hn : n < 2 ^ (7 * i)) :
    getVarintLoop w last (7 * i) (BitVec.ofNat w n) p = (Base128.decode (k - i) p).map fun r =>
      (BitVec.ofNat w (n + 2 ^ (7 * i) * r.1), r.2) := by
  induction p generalizing i n with
  | nil => cases h : k - i <;> rfl
  | cons b p ih =>
    have hb256 := b.isLt
    rw [getVarintLoop]
    split_ifs with hle hb
    · have hik := (hk i).mp hle
      have hbig : ¬ b.val < 128 := fun h => hb ((and_128 w hw).mpr h)
      have hnext : n + 2 ^ (7 * i) * (b.val % 128) < 2 ^ (7 * (i + 1)) := by
        have hm := Nat.mul_le_mul_left (2 ^ (7 * i)) (Nat.mod_lt b.val (show 0 < 128 by decide))
        rw [Nat.mul_succ] at hm
        rw [Nat.mul_succ, pow_add]
        omega
      have hstep : k - i = (k - (i + 1)) + 1 := by omega
      rw [or_shift (by omega) hn, and_127 w hw, show 7 * i + 7 = 7 * (i + 1) by omega,
        ih _ hik hnext, hstep, Base128.decode, if_neg hbig, Option.map_map]
      refine congrArg (fun f => Option.map f _) (funext fun r => ?_)
      have hval : n + 2 ^ (7 * i) * (b.val % 128) + 2 ^ (7 * (i + 1)) * r.1 =
          n + 2 ^ (7 * i) * (b.val - 128 + 128 * r.1) := by
        rw [show b.val % 128 = b.val - 128 by omega, Nat.mul_succ, pow_add]
        ring
      rw [hval]
      rfl
    · have hik := (hk i).mp hle
      have hsmall : b.val < 128 := (and_128 w hw).mp (not_not.mp hb)
      have hpow : 2 ^ 8 ≤ 2 ^ w := Nat.pow_le_pow_right (by decide) hw
      have hstep : k - i = (k - (i + 1)) + 1 := by omega
      rw [or_shift (by omega) hn, BitVec.toNat_ofNat, Nat.mod_eq_of_lt (by omega), hstep,
        Base128.decode, if_pos hsmall, Option.map_some]
    · obtain rfl : i = k := le_antisymm hi (not_lt.mp fun h => hle ((hk i).mpr h))
      rw [Nat.sub_self]
      rfl

theorem getVarint32PtrFallback_eq (p : Bytes) : getVarint32PtrFallback p =
    (Base128.decode 5 p).map fun r => (UInt32.ofNat r.1, r.2) := by
  have hshift (i : ℕ) : 7 * i ≤ 28 ↔ i < 5 := by omega
  have h := getVarintLoop_eq (w := 32) (by decide) (by decide) hshift p (i := 0) 0 (by decide)
    (by decide)
  rw [getVarint32PtrFallback]
  change (getVarintLoop 32 28 (7 * 0) (BitVec.ofNat 32 0) p).map _ = _
  rw [h, Option.map_map]
  refine congrArg (fun f => Option.map f _) (funext fun r => ?_)
  simp only [Function.comp, Nat.mul_zero, pow_zero, Nat.one_mul, Nat.zero_add]
  rfl

theorem getVarint64_eq (p : Bytes) : getVarint64 p =
    (Base128.decode 10 p).map fun r => (UInt64.ofNat r.1, r.2) := by
  have hshift (i : ℕ) : 7 * i ≤ 63 ↔ i < 10 := by omega
  have h := getVarintLoop_eq (w := 64) (by decide) (by decide) hshift p (i := 0) 0 (by decide)
    (by decide)
  rw [getVarint64]
  change (getVarintLoop 64 63 (7 * 0) (BitVec.ofNat 64 0) p).map _ = _
  rw [h, Option.map_map]
  refine congrArg (fun f => Option.map f _) (funext fun r => ?_)
  simp only [Function.comp, Nat.mul_zero, pow_zero, Nat.one_mul, Nat.zero_add]
  rfl

theorem getVarint32_eq (p : Bytes) : getVarint32 p =
    (Base128.decode 5 p).map fun r => (UInt32.ofNat r.1, r.2) := by
  cases p with
  | nil => exact getVarint32PtrFallback_eq []
  | cons b p =>
    rw [getVarint32]
    have hbits : UInt32.ofNat b.val &&& 128 = 0 ↔ b.val < 128 := by
      rw [← and_128 32 (by decide), ← UInt32.toBitVec_inj]
      rfl
    split_ifs with hb
    · rw [Base128.decode, if_pos (hbits.mp hb)]
      rfl
    · exact getVarint32PtrFallback_eq (b :: p)

theorem encodeVarint32_eq (v : UInt32) : encodeVarint32 v = Base128.encode 5 v.toNat := by
  have hv := v.toNat_lt
  have hor (x : UInt32) : byte (x ||| 128).toNat = Base128.byte (x.toNat % 128 + 128) := by
    rw [UInt32.toNat_or]
    exact or_128 _
  have h7 : (v >>> 7).toNat = v.toNat / 128 := by
    rw [UInt32.toNat_shiftRight, Nat.shiftRight_eq_div_pow]
    rfl
  have h14 : (v >>> 14).toNat = v.toNat / 128 / 128 := by
    rw [UInt32.toNat_shiftRight, Nat.shiftRight_eq_div_pow, Nat.div_div_eq_div_mul]
    rfl
  have h21 : (v >>> 21).toNat = v.toNat / 128 / 128 / 128 := by
    rw [UInt32.toNat_shiftRight, Nat.shiftRight_eq_div_pow, Nat.div_div_eq_div_mul,
      Nat.div_div_eq_div_mul]
    rfl
  have h28 : (v >>> 28).toNat = v.toNat / 128 / 128 / 128 / 128 := by
    rw [UInt32.toNat_shiftRight, Nat.shiftRight_eq_div_pow, Nat.div_div_eq_div_mul,
      Nat.div_div_eq_div_mul, Nat.div_div_eq_div_mul]
    rfl
  have hlt (k : UInt32) : v < k ↔ v.toNat < k.toNat := UInt32.lt_iff_toNat_lt
  have e7 : ((1 : UInt32) <<< 7).toNat = 2 ^ 7 := by decide
  have e14 : ((1 : UInt32) <<< 14).toNat = 2 ^ 14 := by decide
  have e21 : ((1 : UInt32) <<< 21).toNat = 2 ^ 21 := by decide
  have e28 : ((1 : UInt32) <<< 28).toNat = 2 ^ 28 := by decide
  simp only [encodeVarint32, hlt, e7, e14, e21, e28, hor, h7, h14, h21, h28]
  split_ifs with c7 c14 c21 c28
  · rw [Base128.encode, if_pos (by omega)]
    rfl
  · rw [Base128.encode, if_neg (by omega), Base128.encode, if_pos (by omega)]
    rfl
  · rw [Base128.encode, if_neg (by omega), Base128.encode, if_neg (by omega), Base128.encode,
      if_pos (by omega)]
    rfl
  · rw [Base128.encode, if_neg (by omega), Base128.encode, if_neg (by omega), Base128.encode,
      if_neg (by omega), Base128.encode, if_pos (by omega)]
    rfl
  · rw [Base128.encode, if_neg (by omega), Base128.encode, if_neg (by omega), Base128.encode,
      if_neg (by omega), Base128.encode, if_neg (by omega), Base128.encode, if_pos (by omega)]
    rfl

theorem encodeVarint64Loop_eq (n : ℕ) (v : UInt64) :
    encodeVarint64Loop n v = Base128.encode n v.toNat := by
  induction n generalizing v with
  | zero => rfl
  | succ n ih =>
    have hle : 128 ≤ v ↔ ¬ v.toNat < 128 := by
      rw [UInt64.le_iff_toNat_le, not_lt]
      rfl
    have hbyte : byte (v &&& 127 ||| 128).toNat = Base128.byte (v.toNat % 128 + 128) := by
      rw [UInt64.toNat_or, UInt64.toNat_and]
      change byte (v.toNat &&& 2 ^ 7 - 1 ||| 128) = _
      rw [or_128, Nat.and_two_pow_sub_one_eq_mod, Nat.mod_mod]
    have hshift : (v >>> 7).toNat = v.toNat / 128 := by
      rw [UInt64.toNat_shiftRight, Nat.shiftRight_eq_div_pow]
      rfl
    rw [encodeVarint64Loop, Base128.encode, ih, hbyte, hshift]
    simp only [hle]
    split_ifs <;> rfl

theorem varintLengthLoop_eq (n : ℕ) (v : UInt64) (len : ℕ) (hv : v.toNat < 128 ^ (n + 1)) :
    varintLengthLoop n v len + 1 = len + (Base128.encode (n + 1) v.toNat).length := by
  induction n generalizing v len with
  | zero =>
    rw [Base128.encode, if_pos (by simpa using hv)]
    rfl
  | succ n ih =>
    have hle : 128 ≤ v ↔ ¬ v.toNat < 128 := by
      rw [UInt64.le_iff_toNat_le, not_lt]
      rfl
    have hshift : (v >>> 7).toNat = v.toNat / 128 := by
      rw [UInt64.toNat_shiftRight, Nat.shiftRight_eq_div_pow]
      rfl
    have hrest := ih (v >>> 7) (len + 1) (by rw [hshift]; exact Base128.div_lt_pow hv)
    rw [varintLengthLoop, Base128.encode]
    simp only [hle]
    split_ifs with h
    · rfl
    · rw [hrest, hshift, List.length_cons]
      omega

theorem encodeVarint64_eq (v : UInt64) : encodeVarint64 v = Base128.encode 10 v.toNat :=
  encodeVarint64Loop_eq 10 v

theorem varintLength_eq (v : UInt64) : varintLength v = (encodeVarint64 v).length := by
  have h := varintLengthLoop_eq 9 v 1 (v.toNat_lt.trans (by decide))
  rw [varintLength, encodeVarint64_eq]
  exact Nat.add_right_cancel (h.trans (Nat.add_comm _ _))

theorem toNat_lt_groups32 (v : UInt32) : v.toNat < 128 ^ 5 := v.toNat_lt.trans (by decide)

theorem toNat_lt_groups64 (v : UInt64) : v.toNat < 128 ^ 10 := v.toNat_lt.trans (by decide)

theorem encodeVarint32_groups (v : UInt32) : Base128.Groups (encodeVarint32 v) := by
  rw [encodeVarint32_eq]
  exact (Base128.encode_groups (toNat_lt_groups32 v)).resolve_right (by decide)

theorem encodeVarint64_groups (v : UInt64) : Base128.Groups (encodeVarint64 v) := by
  rw [encodeVarint64_eq]
  exact (Base128.encode_groups (toNat_lt_groups64 v)).resolve_right (by decide)

theorem encodeVarint32_toUInt64 (v : UInt32) : encodeVarint64 v.toUInt64 = encodeVarint32 v := by
  rw [encodeVarint64_eq, encodeVarint32_eq, UInt32.toNat_toUInt64]
  exact Base128.encode_add (by decide) (toNat_lt_groups32 v) 5

@[simp] theorem getVarint32_append (v : UInt32) (r : Bytes) :
    getVarint32 (encodeVarint32 v ++ r) = some (v, r) := by
  rw [getVarint32_eq, encodeVarint32_eq,
    Base128.decode_encode_append (by decide) (toNat_lt_groups32 v), Option.map_some,
    UInt32.ofNat_toNat]

@[simp] theorem getVarint64_append (v : UInt64) (r : Bytes) :
    getVarint64 (encodeVarint64 v ++ r) = some (v, r) := by
  rw [getVarint64_eq, encodeVarint64_eq,
    Base128.decode_encode_append (by decide) (toNat_lt_groups64 v), Option.map_some,
    UInt64.ofNat_toNat]

theorem getVarint32_cut (v : UInt32) {m : ℕ} (hm : m < (encodeVarint32 v).length) :
    getVarint32 ((encodeVarint32 v).take m) = none := by
  rw [getVarint32_eq, (encodeVarint32_groups v).cut m hm, Option.map_none]

theorem getVarint64_cut (v : UInt64) {m : ℕ} (hm : m < (encodeVarint64 v).length) :
    getVarint64 ((encodeVarint64 v).take m) = none := by
  rw [getVarint64_eq, (encodeVarint64_groups v).cut m hm, Option.map_none]

theorem getVarint32_some {p r : Bytes} {v : UInt32} : getVarint32 p = some (v, r) ↔
    ∃ q, Base128.Groups q ∧ q.length ≤ 5 ∧ p = q ++ r ∧ v = UInt32.ofNat (Base128.value q) := by
  rw [getVarint32_eq, Option.map_eq_some_iff]
  constructor
  · rintro ⟨⟨n, r'⟩, hread, heq⟩
    obtain ⟨rfl, rfl⟩ := Prod.mk.inj heq
    obtain ⟨q, hq, hlen, rfl, rfl⟩ := Base128.decode_some hread
    exact ⟨q, hq, hlen, rfl, rfl⟩
  · rintro ⟨q, hq, hlen, rfl, rfl⟩
    exact ⟨_, Base128.decode_append hq hlen r, rfl⟩

theorem getVarint64_some {p r : Bytes} {v : UInt64} : getVarint64 p = some (v, r) ↔
    ∃ q, Base128.Groups q ∧ q.length ≤ 10 ∧ p = q ++ r ∧ v = UInt64.ofNat (Base128.value q) := by
  rw [getVarint64_eq, Option.map_eq_some_iff]
  constructor
  · rintro ⟨⟨n, r'⟩, hread, heq⟩
    obtain ⟨rfl, rfl⟩ := Prod.mk.inj heq
    obtain ⟨q, hq, hlen, rfl, rfl⟩ := Base128.decode_some hread
    exact ⟨q, hq, hlen, rfl, rfl⟩
  · rintro ⟨q, hq, hlen, rfl, rfl⟩
    exact ⟨_, Base128.decode_append hq hlen r, rfl⟩

/-- What is written is read back whatever follows, a number cut short is refused, and a reader
accepts groups of no more than five or ten bytes, for the number they hold modulo the word. -/
theorem varints_exact :
    (∀ v r, getVarint32 (encodeVarint32 v ++ r) = some (v, r)) ∧
    (∀ v r, getVarint64 (encodeVarint64 v ++ r) = some (v, r)) ∧
    (∀ v m, m < (encodeVarint32 v).length → getVarint32 ((encodeVarint32 v).take m) = none) ∧
    (∀ v m, m < (encodeVarint64 v).length → getVarint64 ((encodeVarint64 v).take m) = none) ∧
    (∀ v, (encodeVarint32 v).length = varintLength v.toUInt64) ∧
    (∀ v, (encodeVarint64 v).length = varintLength v) ∧
    (∀ p v r, getVarint32 p = some (v, r) ↔ ∃ q, Base128.Groups q ∧ q.length ≤ 5 ∧ p = q ++ r ∧
      v = UInt32.ofNat (Base128.value q)) ∧
    ∀ p v r, getVarint64 p = some (v, r) ↔ ∃ q, Base128.Groups q ∧ q.length ≤ 10 ∧ p = q ++ r ∧
      v = UInt64.ofNat (Base128.value q) :=
  ⟨getVarint32_append, getVarint64_append, fun v _ => getVarint32_cut v,
    fun v _ => getVarint64_cut v,
    fun v => by rw [varintLength_eq, encodeVarint32_toUInt64],
    fun v => (varintLength_eq v).symm, fun _ _ _ => getVarint32_some,
    fun _ _ _ => getVarint64_some⟩

theorem varints_exact_torn : getVarint32 ((encodeVarint32 300).take 1) = none :=
  varints_exact.2.2.1 300 1 (by decide)

@[simp] theorem getLengthPrefixedSlice_append {value : Bytes} (h : value.length < 2 ^ 32) (r : Bytes) :
    getLengthPrefixedSlice (lengthPrefixedSlice value ++ r) = some (value, r) := by
  rw [getLengthPrefixedSlice, lengthPrefixedSlice, List.append_assoc, getVarint32_append]
  change (if (UInt32.ofNat value.length).toNat ≤ _ then _ else _) = _
  rw [UInt32.toNat_ofNat_of_lt' h, if_pos (by simp), List.take_left, List.drop_left]

theorem getLengthPrefixedSlice_cut {value : Bytes} (h : value.length < 2 ^ 32) {m : ℕ}
    (hm : m < (lengthPrefixedSlice value).length) :
    getLengthPrefixedSlice ((lengthPrefixedSlice value).take m) = none := by
  rw [lengthPrefixedSlice, List.length_append] at hm
  rw [getLengthPrefixedSlice, lengthPrefixedSlice, List.take_append]
  rcases lt_or_ge m (encodeVarint32 (UInt32.ofNat value.length)).length with hlt | hge
  · rw [Nat.sub_eq_zero_of_le hlt.le, List.take_zero, List.append_nil, getVarint32_cut _ hlt]
  · rw [List.take_of_length_le hge, getVarint32_append]
    change (if (UInt32.ofNat value.length).toNat ≤ _ then _ else _) = _
    rw [UInt32.toNat_ofNat_of_lt' h, if_neg]
    rw [List.length_take]
    omega

end Coding
