import Mathlib.Tactic

namespace Base128

def byte (n : ℕ) : Fin 256 := ⟨n % 256, Nat.mod_lt n (by decide)⟩

@[simp] theorem byte_val (n : ℕ) : (byte n).val = n % 256 := rfl

def encode : ℕ → ℕ → List (Fin 256)
  | 0, _ => []
  | k + 1, n => if n < 128 then [byte n] else byte (n % 128 + 128) :: encode k (n / 128)

def decode : ℕ → List (Fin 256) → Option (ℕ × List (Fin 256))
  | 0, _ => none
  | _ + 1, [] => none
  | k + 1, b :: p =>
    if b.val < 128 then some (b.val, p)
    else (decode k p).map fun r => (b.val - 128 + 128 * r.1, r.2)

def value (p : List (Fin 256)) : ℕ := p.foldr (fun b n => b.val % 128 + 128 * n) 0

inductive Groups : List (Fin 256) → Prop
  | last (b : Fin 256) (h : b.val < 128) : Groups [b]
  | more (b : Fin 256) (h : 128 ≤ b.val) {p : List (Fin 256)} (hp : Groups p) : Groups (b :: p)

variable {k n : ℕ}

theorem encode_length_le (k n : ℕ) : (encode k n).length ≤ k := by
  induction k generalizing n with
  | zero => simp [encode]
  | succ k ih =>
    rw [encode]
    split_ifs
    · simp
    · simpa using ih (n / 128)

theorem div_lt_pow (hn : n < 128 ^ (k + 1)) : n / 128 < 128 ^ k := by
  rw [pow_succ'] at hn
  exact Nat.div_lt_of_lt_mul hn

theorem encode_add (hk : 0 < k) (hn : n < 128 ^ k) (j : ℕ) : encode (k + j) n = encode k n := by
  induction k generalizing n with
  | zero => exact absurd hk (lt_irrefl 0)
  | succ k ih =>
    rw [Nat.add_right_comm, encode, encode]
    split_ifs with h
    · rfl
    · have hpos : 0 < k := Nat.pos_of_ne_zero fun h0 => h (by simpa [h0] using hn)
      rw [ih hpos (div_lt_pow hn)]

theorem encode_groups (hn : n < 128 ^ k) : Groups (encode k n) ∨ k = 0 := by
  induction k generalizing n with
  | zero => exact .inr rfl
  | succ k ih =>
    refine .inl ?_
    rw [encode]
    split_ifs with h
    · refine .last _ ?_
      rw [byte_val]
      omega
    · rcases ih (div_lt_pow hn) with hp | rfl
      · refine .more _ ?_ hp
        rw [byte_val]
        omega
      · simp at hn
        omega

theorem value_encode (hn : n < 128 ^ k) : value (encode k n) = n := by
  induction k generalizing n with
  | zero =>
    simp at hn
    simp [encode, value, hn]
  | succ k ih =>
    have hrest := ih (div_lt_pow hn)
    simp only [value] at hrest ⊢
    rw [encode]
    split_ifs with h
    · simp only [List.foldr_cons, List.foldr_nil, byte_val]
      omega
    · simp only [List.foldr_cons, byte_val, hrest]
      omega

theorem decode_append {p : List (Fin 256)} (hp : Groups p) (hk : p.length ≤ k) (r : List (Fin 256)) :
    decode k (p ++ r) = some (value p, r) := by
  induction hp generalizing k with
  | last b h =>
    cases k with
    | zero => simp at hk
    | succ k => simp [decode, value, h, Nat.mod_eq_of_lt h]
  | more b h hp ih =>
    cases k with
    | zero => simp at hk
    | succ k =>
      have hrest := ih (Nat.le_of_succ_le_succ hk)
      have hb : b.val % 128 = b.val - 128 := by omega
      rw [List.cons_append, decode, if_neg (by omega), hrest, Option.map_some, value, value,
        List.foldr_cons, hb]

theorem decode_some {p r : List (Fin 256)} (h : decode k p = some (n, r)) :
    ∃ q, Groups q ∧ q.length ≤ k ∧ p = q ++ r ∧ n = value q := by
  induction k generalizing p n with
  | zero => simp [decode] at h
  | succ k ih =>
    cases p with
    | nil => simp [decode] at h
    | cons b p =>
      rw [decode] at h
      split_ifs at h with hb
      · obtain ⟨rfl, rfl⟩ := Prod.mk.inj (Option.some.inj h)
        exact ⟨[b], .last b hb, by simp, rfl, by simp [value, Nat.mod_eq_of_lt hb]⟩
      · obtain ⟨⟨m, r'⟩, hrest, heq⟩ := Option.map_eq_some_iff.mp h
        obtain ⟨rfl, rfl⟩ := Prod.mk.inj heq
        obtain ⟨q, hq, hlen, rfl, rfl⟩ := ih hrest
        refine ⟨b :: q, .more b (not_lt.mp hb) hq, Nat.succ_le_succ hlen, rfl, ?_⟩
        simp only [value, List.foldr_cons]
        omega

theorem Groups.cut {p : List (Fin 256)} (hp : Groups p) (m : ℕ) (hm : m < p.length) (k : ℕ) :
    decode k (p.take m) = none := by
  induction hp generalizing m k with
  | last b h =>
    obtain rfl : m = 0 := by simpa using hm
    cases k <;> rfl
  | more b h hp ih =>
    cases k with
    | zero => rfl
    | succ k =>
      cases m with
      | zero => rfl
      | succ m =>
        rw [List.take_succ_cons, decode, if_neg (by omega), ih m (by simpa using hm),
          Option.map_none]

theorem decode_encode_append (hk : 0 < k) (hn : n < 128 ^ k) (r : List (Fin 256)) :
    decode k (encode k n ++ r) = some (n, r) := by
  have hg := (encode_groups hn).resolve_right hk.ne'
  rw [decode_append hg (encode_length_le k n), value_encode hn]

end Base128
