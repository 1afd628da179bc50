import Mathlib.Data.Nat.Bitwise
import Ssdb.Plan.Kv

namespace SSDBImpl
open Keys

def bit (val : Bytes) (i : ℕ) : Bool := (val.getD (i / 8) 0).val.testBit (7 - i % 8)

theorem bitOf_eq (val : Bytes) (i : ℕ) :
    bitOf val i = if bit val i = true then 2 ^ (7 - i % 8) else 0 := by
  rw [bitOf, Nat.and_two_pow, bit]
  cases ((val.getD (i / 8) 0).val).testBit (7 - i % 8) <;> simp

theorem padTo_length (len : ℕ) (val : Bytes) :
    (padTo len val).length = max val.length (len + 1) := by
  rw [padTo]
  split_ifs
  · simp only [List.length_append, List.length_replicate]
    omega
  · omega

theorem padTo_getD (len k : ℕ) (val : Bytes) : (padTo len val).getD k 0 = val.getD k 0 := by
  rw [padTo]
  split_ifs
  · simp only [List.getD_eq_getElem?_getD]
    by_cases hk : k < val.length
    · rw [List.getElem?_append_left hk]
    · have hpast : val[k]? = none := List.getElem?_eq_none (by omega)
      rw [List.getElem?_append_right (by omega), hpast, List.getElem?_replicate]
      split_ifs <;> rfl
  · rfl

def turned (c : Byte) (m : ℕ) (on : Int) : ℕ :=
  if on = 1 then c.val ||| 2 ^ m else c.val &&& (255 ^^^ 2 ^ m)

theorem turned_lt (c : Byte) {m : ℕ} (hm : m < 8) (on : Int) : turned c m on < 256 := by
  have hpow : (2 : ℕ) ^ m < 2 ^ 8 := Nat.pow_lt_pow_right (by omega) hm
  rw [turned]
  split_ifs
  · exact Nat.or_lt_two_pow (n := 8) c.isLt hpow
  · exact lt_of_le_of_lt Nat.and_le_left c.isLt

theorem turned_testBit (c : Byte) {m k : ℕ} (on : Int) (hk : k < 8) :
    (turned c m on).testBit k = if m = k then decide (on = 1) else c.val.testBit k := by
  have hones : (255 : ℕ).testBit k = true := by
    have h := Nat.testBit_two_pow_sub_one 8 k
    simpa [hk] using h
  rw [turned]
  split_ifs with hon hmk hmk
  · simp [Nat.testBit_or, hmk, hon]
  · simp [Nat.testBit_or, hmk]
  · simp [Nat.testBit_and, Nat.testBit_xor, hmk, hon, hones]
  · simp [Nat.testBit_and, Nat.testBit_xor, hmk, hones]

theorem withBit_eq (val : Bytes) (i : ℕ) (on : Int) : withBit val i on =
    val.set (i / 8) (Fin.ofNat 256 (turned (val.getD (i / 8) 0) (7 - i % 8) on)) := rfl

theorem withBit_getD {val : Bytes} {i : ℕ} (on : Int) (hi : i / 8 < val.length) (k : ℕ) :
    ((withBit val i on).getD k 0).val =
      if k = i / 8 then turned (val.getD (i / 8) 0) (7 - i % 8) on else (val.getD k 0).val := by
  rw [withBit_eq, List.getD_eq_getElem?_getD, List.getElem?_set]
  split_ifs with h1 h2 h3
  · exact Nat.mod_eq_of_lt (turned_lt _ (by omega) on)
  · exact absurd h1.symm h2
  · exact absurd h3.symm h1
  · rw [List.getD_eq_getElem?_getD]

theorem bit_withBit (val : Bytes) (i j : ℕ) (on : Int) :
    bit (withBit (padTo (i / 8) val) i on) j = if j = i then decide (on = 1) else bit val j := by
  have hi : i / 8 < (padTo (i / 8) val).length := by
    rw [padTo_length]
    omega
  rw [bit, withBit_getD on hi, bit]
  by_cases hbyte : j / 8 = i / 8
  · rw [if_pos hbyte, turned_testBit _ _ (by omega), padTo_getD, hbyte]
    by_cases hij : j = i
    · rw [hij, if_pos rfl, if_pos rfl]
    · rw [if_neg (by omega : ¬ 7 - i % 8 = 7 - j % 8), if_neg hij]
  · have hij : j ≠ i := fun h => hbyte (by rw [h])
    rw [if_neg hbyte, if_neg hij, padTo_getD]

theorem withBit_length (val : Bytes) (i : ℕ) (on : Int) :
    (withBit (padTo (i / 8) val) i on).length = max val.length (i / 8 + 1) := by
  rw [withBit_eq, List.length_set, padTo_length]

variable {w : SSDBImpl} {key : Bytes}

def stored (w : SSDBImpl) (key : Bytes) : Bytes := (w.ldb.table.get (encodeKvKey key)).getD []

theorem getbit_apply (h : w.faults = Faults.none) (j : ℕ) :
    getbit key j w = (if bit (w.stored key) j = true then 1 else 0, w) := by
  have hget : w.faults.get = [] := by rw [h]; rfl
  rw [getbit, M.bind_apply, get, getRecord_apply _ hget, LevelDB.readRecord, stored]
  have hpast {val : Bytes} (hlen : j / 8 ≥ val.length) : bit val j = false := by
    rw [bit, List.getD_eq_getElem?_getD, List.getElem?_eq_none hlen]
    exact Nat.zero_testBit _
  cases w.ldb.table.get (encodeKvKey key) with
  | none =>
    rw [Option.getD_none, hpast (Nat.zero_le _)]
    rfl
  | some val =>
    simp only [Option.getD_some, M.ite_apply, M.pure_apply, bitOf_eq]
    by_cases hlen : j / 8 ≥ val.length
    · simp only [if_pos hlen, hpast hlen]
      rfl
    · rw [if_neg (by decide), if_neg hlen]
      by_cases hb : bit val j = true
      · simp [hb]
      · simp [hb]

theorem setbit_apply (h : w.faults = Faults.none) (hkey : key ≠ [])
    (hlen : key.length ≤ SSDB_KEY_LEN_MAX) (i : ℕ) (on : Int) (t : Byte) :
    (setbit key i on t w).1 = (if bit (w.stored key) i = true then 2 ^ (7 - i % 8) else 0 : ℕ) ∧
      (setbit key i on t w).2.faults = Faults.none ∧
      (setbit key i on t w).2.ldb.table.get (encodeKvKey key) =
        some (withBit (padTo (i / 8) (w.stored key)) i on) := by
  have hget : w.faults.get = [] := by rw [h]; rfl
  have hplan : setbitPlan w.ldb key i on t =
      .commit (kvRecs key (withBit (padTo (i / 8) (w.stored key)) i on) t)
        (bitOf (padTo (i / 8) (w.stored key)) i) (-1) := by
    rw [setbitPlan, if_neg hkey, if_neg (by omega)]
    rfl
  have hbit : bit (padTo (i / 8) (w.stored key)) i = bit (w.stored key) i := by
    rw [bit, padTo_getD, bit]
  have hdata := Plan.run_data w (setbitPlan w.ldb key i on t) h (by
    rw [hplan]
    intro r hr
    simp only [Plan.recs, kvRecs, List.mem_cons, List.not_mem_nil, or_false] at hr
    rcases hr with rfl | rfl
    · exact kvKey_data key
    · trivial)
  obtain ⟨hreply, hfaults⟩ := Plan.run_answered w (setbitPlan w.ldb key i on t) h
  rw [setbit_plan key i on t hget]
  refine ⟨?_, hfaults, ?_⟩
  · rw [hreply, hplan, Plan.reply, bitOf_eq, hbit]
  · rw [← LevelDB.data_eq (kvKey_data key), hdata, hplan]
    simp [Plan.recs, kvRecs, Rec.effect]

/-- The value's bits are an array that `getbit` reads and `setbit` writes. -/
theorem setbit_bits (h : w.faults = Faults.none) (hkey : key ≠ [])
    (hlen : key.length ≤ SSDB_KEY_LEN_MAX) (i : ℕ) (on : Int) (t : Byte) :
    ((getbit key i w).1 = 1 ∧ 0 < (setbit key i on t w).1 ∨
        (getbit key i w).1 = 0 ∧ (setbit key i on t w).1 = 0) ∧
      (getbit key i (setbit key i on t w).2).1 = (if on = 1 then 1 else 0) ∧
      (∀ j, j ≠ i → (getbit key j (setbit key i on t w).2).1 = (getbit key j w).1) ∧
      ∃ val, (setbit key i on t w).2.ldb.table.get (encodeKvKey key) = some val ∧
        val.length = max (w.stored key).length (i / 8 + 1) ∧
        ∀ k, k < val.length → k ≠ i / 8 → val[k]? = some ((w.stored key).getD k 0) := by
  obtain ⟨hreply, hfaults, hval⟩ := setbit_apply h hkey hlen i on t
  have hstored : (setbit key i on t w).2.stored key =
      withBit (padTo (i / 8) (w.stored key)) i on := by
    rw [stored, hval, Option.getD_some]
  refine ⟨?_, ?_, fun j hj => ?_, _, hval, withBit_length _ _ _, fun k hk hne => ?_⟩
  · rw [getbit_apply h, hreply]
    by_cases hb : bit (w.stored key) i = true
    · simp [hb]
    · simp [hb]
  · rw [getbit_apply hfaults, hstored, bit_withBit, if_pos rfl]
    simp
  · rw [getbit_apply hfaults, getbit_apply h, hstored, bit_withBit, if_neg hj]
  · rw [withBit_eq, List.length_set] at hk
    rw [withBit_eq, List.getElem?_set_ne (Ne.symm hne), List.getElem?_eq_getElem hk]
    have hpad := padTo_getD (i / 8) k (w.stored key)
    rw [List.getD_eq_getElem?_getD, List.getElem?_eq_getElem hk, Option.getD_some] at hpad
    rw [hpad]

theorem setbit_bits_high :
    (getbit [107] 0 (setbit [107] 0 1 1 (set [107] [64] 1 (fresh true 1000)).2).2).1 = 1 ∧
      (getbit [107] 1 (setbit [107] 0 1 1 (set [107] [64] 1 (fresh true 1000)).2).2).1 =
        (getbit [107] 1 (set [107] [64] 1 (fresh true 1000)).2).1 := by
  have h := setbit_bits (w := (set [107] [64] 1 (fresh true 1000)).2)
    (by decide +kernel) (List.cons_ne_nil 107 []) (by decide) 0 1 1
  exact ⟨h.2.1, h.2.2.1 1 (by decide)⟩

end SSDBImpl
