import Mathlib.Tactic

namespace Crc
variable {w : ℕ} (poly : BitVec w)

def shift (c : BitVec w) : BitVec w := if c.getLsbD 0 then c >>> 1 ^^^ poly else c >>> 1

def shifts : ℕ → BitVec w → BitVec w
  | 0, c => c
  | n + 1, c => shifts n (shift poly c)

def feed (c : BitVec w) (p : List (Fin 256)) : BitVec w :=
  p.foldl (fun c b => shifts poly 8 (c ^^^ BitVec.ofNat w b.val)) c

def word : List (Fin 256) → BitVec w
  | [] => 0#w
  | b :: p => BitVec.ofNat w b.val ^^^ word p <<< 8

variable {poly}

theorem xor_cancel (a b p : BitVec w) : a ^^^ p ^^^ (b ^^^ p) = a ^^^ b := by
  rw [BitVec.xor_assoc, BitVec.xor_comm b p, ← BitVec.xor_assoc p p b, BitVec.xor_self,
    BitVec.zero_xor]

theorem shift_xor (a b : BitVec w) : shift poly (a ^^^ b) = shift poly a ^^^ shift poly b := by
  simp only [shift, BitVec.getLsbD_xor, BitVec.ushiftRight_xor_distrib]
  cases a.getLsbD 0 with
  | false => cases b.getLsbD 0 <;> simp [BitVec.xor_assoc]
  | true =>
    cases b.getLsbD 0 with
    | false => simp [BitVec.xor_assoc, BitVec.xor_comm (b >>> 1) poly]
    | true => simp [xor_cancel]

theorem shifts_xor (n : ℕ) (a b : BitVec w) :
    shifts poly n (a ^^^ b) = shifts poly n a ^^^ shifts poly n b := by
  induction n generalizing a b with
  | zero => rfl
  | succ n ih => rw [shifts, shift_xor, ih, shifts, shifts]

theorem shifts_add (m n : ℕ) (c : BitVec w) : shifts poly (m + n) c = shifts poly n (shifts poly m c) := by
  induction m generalizing c with
  | zero => rw [Nat.zero_add, shifts]
  | succ m ih => rw [Nat.add_right_comm, shifts, ih, shifts]

theorem shifts_clear {n : ℕ} {c : BitVec w} (h : ∀ i < n, c.getLsbD i = false) :
    shifts poly n c = c >>> n := by
  induction n generalizing c with
  | zero => simp [shifts]
  | succ n ih =>
    have hlow : c.getLsbD 0 = false := h 0 (Nat.succ_pos n)
    have hrest : ∀ i < n, (c >>> 1).getLsbD i = false := fun i hi => by
      rw [BitVec.getLsbD_ushiftRight]
      exact h (1 + i) (by omega)
    rw [shifts, shift, hlow, if_neg (by simp), ih hrest, ← BitVec.shiftRight_add, Nat.add_comm]

theorem shifts_low (n : ℕ) (c : BitVec w) :
    shifts poly n c = shifts poly n (BitVec.ofNat w (c.toNat % 2 ^ n)) ^^^ c >>> n := by
  have hsplit : c = BitVec.ofNat w (c.toNat % 2 ^ n) ^^^ c >>> n <<< n := by
    refine BitVec.eq_of_getLsbD_eq fun i hi => ?_
    rw [BitVec.getLsbD_xor, BitVec.getLsbD_shiftLeft, BitVec.getLsbD_ushiftRight,
      BitVec.getLsbD_ofNat, Nat.testBit_mod_two_pow]
    rcases lt_or_ge i n with hin | hin
    · simp [hi, hin, BitVec.getLsbD]
    · rw [Nat.add_sub_cancel' hin]
      simp [hi, not_lt.mpr hin]
  have hclear : ∀ i < n, (c >>> n <<< n).getLsbD i = false := fun i hi => by
    rw [BitVec.getLsbD_shiftLeft]
    simp [hi]
  have hback : c >>> n <<< n >>> n = c >>> n := by
    refine BitVec.eq_of_getLsbD_eq fun i _ => ?_
    rw [BitVec.getLsbD_ushiftRight, BitVec.getLsbD_shiftLeft, Nat.add_sub_cancel_left,
      BitVec.getLsbD_ushiftRight]
    rcases lt_or_ge (n + i) w with hlt | hge
    · simp [hlt]
    · rw [BitVec.getLsbD_of_ge c (n + i) hge, Bool.and_false]
  have hrest := congrArg (shifts poly n) hsplit
  rwa [shifts_xor, shifts_clear hclear, hback] at hrest

theorem shifts_byte (n : ℕ) (c : BitVec w) : shifts poly (8 + n) c =
    shifts poly (8 + n) (BitVec.ofNat w (c.toNat % 256)) ^^^ shifts poly n (c >>> 8) := by
  rw [shifts_add, shifts_low 8 c, shifts_xor, ← shifts_add]
  rfl

theorem shift_eq_zero (hw : 0 < w) (hpoly : poly.getLsbD (w - 1) = true) {c : BitVec w}
    (h : shift poly c = 0#w) : c = 0#w := by
  rw [shift] at h
  split_ifs at h with hc
  · have htop := congrArg (fun x : BitVec w => x.getLsbD (w - 1)) h
    simp only [BitVec.getLsbD_xor, BitVec.getLsbD_ushiftRight, hpoly, BitVec.getLsbD_zero] at htop
    rw [BitVec.getLsbD_of_ge c (1 + (w - 1)) (by omega)] at htop
    simp at htop
  · refine BitVec.eq_of_getLsbD_eq fun i hi => ?_
    cases i with
    | zero => simpa using hc
    | succ i =>
      have hbit := congrArg (fun x : BitVec w => x.getLsbD i) h
      simpa [BitVec.getLsbD_ushiftRight, Nat.add_comm] using hbit

theorem shifts_injective (hw : 0 < w) (hpoly : poly.getLsbD (w - 1) = true) {n : ℕ} {a b : BitVec w}
    (h : shifts poly n a = shifts poly n b) : a = b := by
  induction n generalizing a b with
  | zero => exact h
  | succ n ih =>
    have hnext := ih h
    have hxor : shift poly (a ^^^ b) = 0#w := by rw [shift_xor, hnext, BitVec.xor_self]
    have hzero := shift_eq_zero hw hpoly hxor
    calc a = a ^^^ b ^^^ b := by rw [BitVec.xor_assoc, BitVec.xor_self, BitVec.xor_zero]
      _ = b := by rw [hzero, BitVec.zero_xor]

theorem feed_append (c : BitVec w) (p q : List (Fin 256)) :
    feed poly c (p ++ q) = feed poly (feed poly c p) q := List.foldl_append

theorem feed_injective (hw : 0 < w) (hpoly : poly.getLsbD (w - 1) = true) {a b : BitVec w}
    (p : List (Fin 256)) (h : feed poly a p = feed poly b p) : a = b := by
  induction p generalizing a b with
  | nil => exact h
  | cons d p ih =>
    have hnext := shifts_injective hw hpoly (ih h)
    calc a = a ^^^ BitVec.ofNat w d.val ^^^ BitVec.ofNat w d.val := by
          rw [BitVec.xor_assoc, BitVec.xor_self, BitVec.xor_zero]
      _ = b := by rw [hnext, BitVec.xor_assoc, BitVec.xor_self, BitVec.xor_zero]

theorem byte_clear (b : Fin 256) {i : ℕ} (hi : 8 ≤ i) : (BitVec.ofNat w b.val).getLsbD i = false := by
  have hlt : b.val < 2 ^ i := b.isLt.trans_le (Nat.pow_le_pow_right Nat.two_pos hi)
  rw [BitVec.getLsbD_ofNat, Nat.testBit_lt_two_pow hlt, Bool.and_false]

theorem word_clear (p : List (Fin 256)) {i : ℕ} (hi : 8 * p.length ≤ i) :
    (word p : BitVec w).getLsbD i = false := by
  induction p generalizing i with
  | nil => rw [word, BitVec.getLsbD_zero]
  | cons b p ih =>
    rw [List.length_cons] at hi
    rw [word, BitVec.getLsbD_xor, byte_clear b (by omega), BitVec.getLsbD_shiftLeft,
      ih (by omega), Bool.and_false, Bool.false_xor]

theorem ofNat_xor_shift (b : Fin 256) (n : ℕ) :
    BitVec.ofNat w b.val ^^^ BitVec.ofNat w n <<< 8 = BitVec.ofNat w (2 ^ 8 * n + b.val) := by
  refine BitVec.eq_of_getLsbD_eq fun i hi => ?_
  rw [BitVec.getLsbD_xor, BitVec.getLsbD_shiftLeft, BitVec.getLsbD_ofNat, BitVec.getLsbD_ofNat,
    BitVec.getLsbD_ofNat, Nat.testBit_two_pow_mul_add n (show b.val < 2 ^ 8 from b.isLt)]
  rcases lt_or_ge i 8 with hlt | hge
  · simp [hi, hlt]
  · have hb := byte_clear (w := w) b hge
    rw [BitVec.getLsbD_ofNat] at hb
    simp [hi, not_lt.mpr hge, show i - 8 < w by omega] at hb ⊢
    simp [hb]

theorem word_eq (p : List (Fin 256)) :
    (word p : BitVec w) = BitVec.ofNat w (p.foldr (fun b n => 2 ^ 8 * n + b.val) 0) := by
  induction p with
  | nil => rfl
  | cons b p ih => rw [word, ih, ofNat_xor_shift, List.foldr_cons]

theorem word_shift_back {p : List (Fin 256)} (hp : 8 * (p.length + 1) ≤ w) :
    (word p <<< 8 : BitVec w) >>> 8 = word p := by
  refine BitVec.eq_of_getLsbD_eq fun i hi => ?_
  rw [BitVec.getLsbD_ushiftRight, BitVec.getLsbD_shiftLeft, Nat.add_sub_cancel_left]
  rcases lt_or_ge (8 + i) w with hlt | hge
  · simp [hlt]
  · rw [word_clear p (by omega), Bool.and_false]

theorem feed_word {p : List (Fin 256)} (hp : 8 * p.length ≤ w) (c : BitVec w) :
    feed poly c p = shifts poly (8 * p.length) (c ^^^ word p) := by
  induction p generalizing c with
  | nil => simp [feed, word, shifts]
  | cons b p ih =>
    rw [List.length_cons] at hp
    have hclear : ∀ i < 8, (word p <<< 8 : BitVec w).getLsbD i = false := fun i hi => by
      rw [BitVec.getLsbD_shiftLeft]
      simp [hi]
    have hmove : shifts poly 8 (word p <<< 8) = word p := by
      rw [shifts_clear hclear, word_shift_back hp]
    have hrest := ih (by omega) (shifts poly 8 (c ^^^ BitVec.ofNat w b.val))
    rw [List.length_cons, Nat.mul_succ, Nat.add_comm, shifts_add, word, ← BitVec.xor_assoc,
      shifts_xor 8 _ (word p <<< 8), hmove]
    exact hrest

theorem word_injective {p q : List (Fin 256)} (hlen : p.length = q.length) (hp : 8 * p.length ≤ w)
    (h : (word p : BitVec w) = word q) : p = q := by
  induction p generalizing q with
  | nil => exact (List.length_eq_zero_iff.mp hlen.symm).symm
  | cons b p ih =>
    cases q with
    | nil => simp at hlen
    | cons d q =>
      rw [List.length_cons] at hp
      have hlen' : p.length = q.length := by simpa using hlen
      rw [word, word] at h
      have hbyte : b = d := by
        refine Fin.ext (Nat.eq_of_testBit_eq fun i => ?_)
        rcases lt_or_ge i 8 with hi | hi
        · have hbit := congrArg (fun x : BitVec w => x.getLsbD i) h
          simpa only [BitVec.getLsbD_xor, BitVec.getLsbD_shiftLeft, BitVec.getLsbD_ofNat, hi,
            show i < w by omega, decide_true, Bool.not_true, Bool.and_false, Bool.false_and,
            Bool.xor_false, Bool.true_and] using hbit
        · have hpow : 2 ^ 8 ≤ 2 ^ i := Nat.pow_le_pow_right (by decide) hi
          rw [Nat.testBit_lt_two_pow (b.isLt.trans_le hpow),
            Nat.testBit_lt_two_pow (d.isLt.trans_le hpow)]
      subst hbyte
      have hshift : (word p <<< 8 : BitVec w) = word q <<< 8 := by
        have hx := congrArg (fun x => BitVec.ofNat w b.val ^^^ x) h
        simpa only [← BitVec.xor_assoc, BitVec.xor_self, BitVec.zero_xor] using hx
      have hback := congrArg (fun x : BitVec w => x >>> 8) hshift
      simp only [word_shift_back hp, word_shift_back (hlen' ▸ hp)] at hback
      rw [ih hlen' (by omega) hback]

theorem feed_burst (hw : 0 < w) (hpoly : poly.getLsbD (w - 1) = true) {p q : List (Fin 256)}
    (hlen : p.length = q.length) (hp : 8 * p.length ≤ w) (hne : p ≠ q) (c : BitVec w)
    (a z : List (Fin 256)) : feed poly c (a ++ p ++ z) ≠ feed poly c (a ++ q ++ z) := by
  intro h
  rw [feed_append, feed_append, feed_append, feed_append] at h
  have hmid := feed_injective hw hpoly z h
  have hq : 8 * q.length ≤ w := by rwa [← hlen]
  rw [feed_word hp, feed_word hq, ← hlen] at hmid
  have hxor := shifts_injective hw hpoly hmid
  have hword := congrArg (fun x => feed poly c a ^^^ x) hxor
  simp only [← BitVec.xor_assoc, BitVec.xor_self, BitVec.zero_xor] at hword
  exact hne (word_injective hlen hp hword)

end Crc
