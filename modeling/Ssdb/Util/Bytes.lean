import Mathlib.Data.Char
import Mathlib.Tactic
import Ssdb.Library.Lexicographic

abbrev Byte := Fin 256

instance instNeZeroByte : NeZero 256 := ⟨by decide⟩

abbrev Bytes := List Byte

instance instLinearOrderInt64 : LinearOrder Int64 where
  le_refl _ := Int64.le_refl _
  le_trans _ _ _ := Int64.le_trans
  lt_iff_le_not_ge a b := by
    rw [Int64.not_le]
    exact ⟨fun h => ⟨Int64.le_of_lt h, h⟩, And.right⟩
  le_antisymm _ _ := Int64.le_antisymm
  le_total := Int64.le_total
  toDecidableLE := inferInstance

namespace Endian

def bigEndian32 (v : UInt32) : UInt32 :=
  (v >>> 24) ||| ((v >>> 8) &&& (0xff00 : UInt32)) ||| ((v <<< 8) &&& (0xff0000 : UInt32)) ||| (v <<< 24)

def bigEndian64 (v : UInt64) : UInt64 :=
  let h := (v >>> 32).toUInt32
  let l := (v &&& (0xffffffff : UInt64)).toUInt32
  (bigEndian32 h).toUInt64 ||| ((bigEndian32 l).toUInt64 <<< 32)

theorem or_eq_add {a b : ℕ} (k : ℕ) (ha : a < 2 ^ k) : a ||| b * 2 ^ k = a + b * 2 ^ k := by
  rw [Nat.or_comm, ← Nat.shiftLeft_eq, Nat.add_comm, Nat.shiftLeft_add_eq_or_of_lt ha]

theorem and_byte (x k : ℕ) : x &&& (255 * 2 ^ k) = (x / 2 ^ k % 256) * 2 ^ k := by
  have h : x / 2 ^ k % 256 = (x >>> k) &&& 255 := by
    rw [Nat.shiftRight_eq_div_pow, ← Nat.and_two_pow_sub_one_eq_mod (x / 2 ^ k) 8]
  rw [h, ← Nat.shiftLeft_eq, ← Nat.shiftLeft_eq]
  apply Nat.eq_of_testBit_eq
  intro j
  simp only [Nat.testBit_and, Nat.testBit_shiftLeft, Nat.testBit_shiftRight]
  by_cases hj : k ≤ j
  · simp [hj]
  · simp [hj]

theorem bigEndian32_toNat (v : UInt32) : (bigEndian32 v).toNat =
    v.toNat / 2 ^ 24 + (v.toNat / 2 ^ 16 % 256) * 2 ^ 8 + (v.toNat / 2 ^ 8 % 256) * 2 ^ 16 +
      (v.toNat % 256) * 2 ^ 24 := by
  have hv := v.toNat_lt
  have h1 : (v >>> 24).toNat = v.toNat / 2 ^ 24 := by
    rw [UInt32.toNat_shiftRight, Nat.shiftRight_eq_div_pow]
    rfl
  have h2 : ((v >>> 8) &&& (0xff00 : UInt32)).toNat = (v.toNat / 2 ^ 16 % 256) * 2 ^ 8 := by
    rw [UInt32.toNat_and, UInt32.toNat_shiftRight, Nat.shiftRight_eq_div_pow]
    change v.toNat / 2 ^ 8 &&& 255 * 2 ^ 8 = _
    rw [and_byte, Nat.div_div_eq_div_mul, ← pow_add]
  have h3 : ((v <<< 8) &&& (0xff0000 : UInt32)).toNat = (v.toNat / 2 ^ 8 % 256) * 2 ^ 16 := by
    rw [UInt32.toNat_and, UInt32.toNat_shiftLeft, Nat.shiftLeft_eq]
    change v.toNat * 2 ^ 8 % 2 ^ 32 &&& 255 * 2 ^ 16 = _
    rw [and_byte]
    omega
  have h4 : (v <<< 24).toNat = (v.toNat % 256) * 2 ^ 24 := by
    rw [UInt32.toNat_shiftLeft, Nat.shiftLeft_eq]
    change v.toNat * 2 ^ 24 % 2 ^ 32 = _
    omega
  simp only [bigEndian32, UInt32.toNat_or, h1, h2, h3, h4]
  rw [or_eq_add 8 (by omega), or_eq_add 16 (by omega), or_eq_add 24 (by omega)]

theorem bigEndian64_toNat (v : UInt64) : (bigEndian64 v).toNat =
    v.toNat / 2 ^ 56 + (v.toNat / 2 ^ 48 % 256) * 2 ^ 8 + (v.toNat / 2 ^ 40 % 256) * 2 ^ 16 +
      (v.toNat / 2 ^ 32 % 256) * 2 ^ 24 + (v.toNat / 2 ^ 24 % 256) * 2 ^ 32 +
      (v.toNat / 2 ^ 16 % 256) * 2 ^ 40 + (v.toNat / 2 ^ 8 % 256) * 2 ^ 48 +
      (v.toNat % 256) * 2 ^ 56 := by
  have hv := v.toNat_lt
  have hh : ((v >>> 32).toUInt32).toNat = v.toNat / 2 ^ 32 := by
    rw [UInt64.toNat_toUInt32, UInt64.toNat_shiftRight, Nat.shiftRight_eq_div_pow]
    change v.toNat / 2 ^ 32 % 2 ^ 32 = _
    omega
  have hl : ((v &&& (0xffffffff : UInt64)).toUInt32).toNat = v.toNat % 2 ^ 32 := by
    rw [UInt64.toNat_toUInt32, UInt64.toNat_and]
    change (v.toNat &&& (2 ^ 32 - 1)) % 2 ^ 32 = _
    rw [Nat.and_two_pow_sub_one_eq_mod]
    omega
  have hs : ((bigEndian32 (v &&& (0xffffffff : UInt64)).toUInt32).toUInt64 <<< 32).toNat =
      (bigEndian32 (v &&& (0xffffffff : UInt64)).toUInt32).toNat * 2 ^ 32 := by
    have hlt := (bigEndian32 (v &&& (0xffffffff : UInt64)).toUInt32).toNat_lt
    rw [UInt64.toNat_shiftLeft, Nat.shiftLeft_eq, UInt32.toNat_toUInt64]
    change _ * 2 ^ 32 % 2 ^ 64 = _
    omega
  have hlt := (bigEndian32 (v >>> 32).toUInt32).toNat_lt
  simp only [bigEndian64, UInt64.toNat_or, hs, UInt32.toNat_toUInt64]
  rw [or_eq_add 32 hlt, bigEndian32_toNat, bigEndian32_toNat, hh, hl]
  have d4 : v.toNat % 2 ^ 32 / 2 ^ 24 = v.toNat / 2 ^ 24 % 256 := by omega
  have d5 : v.toNat % 2 ^ 32 / 2 ^ 16 % 256 = v.toNat / 2 ^ 16 % 256 := by omega
  have d6 : v.toNat % 2 ^ 32 / 2 ^ 8 % 256 = v.toNat / 2 ^ 8 % 256 := by omega
  have d7 : v.toNat % 2 ^ 32 % 256 = v.toNat % 256 := by omega
  rw [d4, d5, d6, d7, Nat.div_div_eq_div_mul, Nat.div_div_eq_div_mul, Nat.div_div_eq_div_mul]
  ring_nf

theorem digits8 (n : ℕ) : FixedWidth.bigEndian 256 8 n =
    [Fin.ofNat 256 (n / 2 ^ 56), Fin.ofNat 256 (n / 2 ^ 48), Fin.ofNat 256 (n / 2 ^ 40),
     Fin.ofNat 256 (n / 2 ^ 32), Fin.ofNat 256 (n / 2 ^ 24), Fin.ofNat 256 (n / 2 ^ 16),
     Fin.ofNat 256 (n / 2 ^ 8), Fin.ofNat 256 n] := by
  simp only [FixedWidth.bigEndian, List.cons.injEq, Fin.ext_iff, Fin.val_ofNat]
  norm_num
  omega

theorem reassemble {a b c d e f g h : ℕ} (ha : a < 256) (hb : b < 256) (hc : c < 256) (hd : d < 256)
    (he : e < 256) (hf : f < 256) (hg : g < 256) (_ : h < 256) :
    FixedWidth.bigEndian 256 8 (a + b * 2 ^ 8 + c * 2 ^ 16 + d * 2 ^ 24 + e * 2 ^ 32 + f * 2 ^ 40 +
      g * 2 ^ 48 + h * 2 ^ 56) = [Fin.ofNat 256 h, Fin.ofNat 256 g, Fin.ofNat 256 f,
      Fin.ofNat 256 e, Fin.ofNat 256 d, Fin.ofNat 256 c, Fin.ofNat 256 b, Fin.ofNat 256 a] := by
  rw [digits8]
  simp only [List.cons.injEq, Fin.ext_iff, Fin.val_ofNat, and_true]
  refine ⟨?_, ?_, ?_, ?_, ?_, ?_, ?_, ?_⟩ <;> omega

def memory (v : UInt64) : Bytes := (FixedWidth.bigEndian 256 8 v.toNat).reverse

def ofMemory (b : Bytes) : UInt64 := UInt64.ofNat (FixedWidth.value 256 b.reverse)

@[simp] theorem memory_length (v : UInt64) : (memory v).length = 8 := by simp [memory]

@[simp] theorem ofMemory_memory (v : UInt64) : ofMemory (memory v) = v := by
  have hv : v.toNat < 256 ^ 8 := v.toNat_lt
  rw [ofMemory, memory, List.reverse_reverse, FixedWidth.value_bigEndian 256 hv,
    UInt64.ofNat_toNat]

theorem memory_ofMemory {b : Bytes} (h : b.length = 8) : memory (ofMemory b) = b := by
  have hlt := FixedWidth.value_lt 256 b.reverse
  have hdigits := FixedWidth.bigEndian_value 256 b.reverse
  rw [List.length_reverse, h] at hlt hdigits
  rw [memory, ofMemory, UInt64.toNat_ofNat_of_lt' hlt, hdigits, List.reverse_reverse]

theorem memory_injective {u v : UInt64} (h : memory u = memory v) : u = v := by
  rw [← ofMemory_memory u, h, ofMemory_memory]

theorem memory_bigEndian64 (v : UInt64) :
    memory (bigEndian64 v) = FixedWidth.bigEndian 256 8 v.toNat := by
  have hv := v.toNat_lt
  have hm (n : ℕ) : n % 256 < 256 := Nat.mod_lt _ (by omega)
  rw [memory, bigEndian64_toNat, reassemble (by omega) (hm _) (hm _) (hm _) (hm _) (hm _) (hm _)
    (hm _), digits8]
  simp [Fin.ext_iff]

@[simp] theorem bigEndian64_bigEndian64 (v : UInt64) : bigEndian64 (bigEndian64 v) = v := by
  apply memory_injective
  rw [memory_bigEndian64, memory, ← memory_bigEndian64 v, memory, List.reverse_reverse]

theorem memory_bigEndian64_lt (u v : UInt64) :
    memory (bigEndian64 u) < memory (bigEndian64 v) ↔ u < v := by
  rw [memory_bigEndian64, memory_bigEndian64, FixedWidth.bigEndian_lt_iff 256 u.toNat_lt v.toNat_lt,
    UInt64.lt_iff_toNat_lt]

theorem toInt_toUInt64 (s : Int64) :
    s.toInt = s.toUInt64.toNat ∧ s.toUInt64.toNat < 9223372036854775808 ∨
      s.toInt = s.toUInt64.toNat - 18446744073709551616 ∧
        9223372036854775808 ≤ s.toUInt64.toNat := by
  have h := BitVec.toInt_eq_toNat_cond s.toBitVec
  change s.toInt = if 2 * s.toUInt64.toNat < 18446744073709551616 then (s.toUInt64.toNat : Int)
    else (s.toUInt64.toNat : Int) - 18446744073709551616 at h
  split_ifs at h <;> omega

theorem toUInt64_lt {s t : Int64} (h : s < 0 ↔ t < 0) : s.toUInt64 < t.toUInt64 ↔ s < t := by
  have hs := toInt_toUInt64 s
  have ht := toInt_toUInt64 t
  have hs' := s.toUInt64.toNat_lt
  have ht' := t.toUInt64.toNat_lt
  rw [Int64.lt_iff_toInt_lt, Int64.lt_iff_toInt_lt, Int64.toInt_zero] at h
  rw [UInt64.lt_iff_toNat_lt, Int64.lt_iff_toInt_lt]
  omega

end Endian

namespace Decoder

def skip (n : ℕ) (p : Bytes) : Option Bytes := if p.length < n then none else some (p.drop n)

def readUint64 (p : Bytes) : Option (UInt64 × Bytes) :=
  if p.length < 8 then none else some (Endian.ofMemory (p.take 8), p.drop 8)

def readInt64 (p : Bytes) : Option (Int64 × Bytes) :=
  (readUint64 p).map (fun r => (r.1.toInt64, r.2))

def readData (p : Bytes) : Bytes × Bytes := (p, [])

def read8Data (p : Bytes) : Option (Bytes × Bytes) :=
  match p with
  | [] => none
  | len :: p => if p.length < len.val then none else some (p.take len.val, p.drop len.val)

end Decoder
