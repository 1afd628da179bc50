import Mathlib.Data.List.Lex
import Mathlib.Tactic

namespace Lexicographic
variable {α : Type} [LinearOrder α]

theorem append_lt_append_iff (p a b : List α) : p ++ a < p ++ b ↔ a < b := by
  induction p with
  | nil => rfl
  | cons x p ih => simp [ih]

theorem append_le_append_iff (p a b : List α) : p ++ a ≤ p ++ b ↔ a ≤ b := by
  rw [← not_lt, ← not_lt, append_lt_append_iff]

theorem append_lt_append_of_length {a b : List α} (h : a.length = b.length) (x y : List α) :
    a ++ x < b ++ y ↔ a < b ∨ a = b ∧ x < y := by
  induction a generalizing b with
  | nil =>
    obtain rfl : b = [] := List.length_eq_zero_iff.mp h.symm
    simp
  | cons c a ih =>
    cases b with
    | nil => simp at h
    | cons d b =>
      simp only [List.cons_append, List.cons_lt_cons_iff, ih (by simpa using h), List.cons.injEq]
      tauto

theorem nil_le (a : List α) : [] ≤ a := by
  rcases List.eq_nil_or_concat a with rfl | ⟨b, c, rfl⟩
  · exact le_rfl
  · exact le_of_lt (by cases b <;> simp)

theorem nil_lt_iff (a : List α) : [] < a ↔ a ≠ [] := by
  cases a <;> simp

theorem prefix_of_between {p a b x : List α} (h1 : p ++ a ≤ x) (h2 : x ≤ p ++ b) :
    ∃ y, x = p ++ y := by
  induction p generalizing x with
  | nil => exact ⟨x, rfl⟩
  | cons c p ih =>
    cases x with
    | nil => exact absurd h1 (not_le.mpr (by simp))
    | cons d x =>
      rw [List.cons_append, ← not_lt, List.cons_lt_cons_iff] at h1
      rw [List.cons_append, ← not_lt, List.cons_lt_cons_iff] at h2
      push Not at h1 h2
      obtain rfl : d = c := le_antisymm h2.1 h1.1
      obtain ⟨y, rfl⟩ := ih (h1.2 rfl) (h2.2 rfl)
      exact ⟨y, rfl⟩

end Lexicographic

namespace FixedWidth
variable (b : ℕ) [NeZero b]

def bigEndian : ℕ → ℕ → List (Fin b)
  | 0, _ => []
  | w + 1, n => Fin.ofNat b (n / b ^ w) :: bigEndian w (n % b ^ w)

def value (ds : List (Fin b)) : ℕ := ds.foldl (fun n d => n * b + d.val) 0

@[simp] theorem bigEndian_length (w n : ℕ) : (bigEndian b w n).length = w := by
  induction w generalizing n with
  | zero => rfl
  | succ w ih => simp [bigEndian, ih]

omit [NeZero b] in
theorem foldl_value (ds : List (Fin b)) (n : ℕ) :
    ds.foldl (fun n d => n * b + d.val) n = n * b ^ ds.length + value b ds := by
  induction ds generalizing n with
  | nil => simp [value]
  | cons d ds ih =>
    have hzero := ih (0 * b + d.val)
    simp only [value, List.foldl_cons, List.length_cons] at hzero ⊢
    rw [ih (n * b + d.val), hzero]
    simp only [value]
    ring

omit [NeZero b] in
theorem value_cons (d : Fin b) (ds : List (Fin b)) :
    value b (d :: ds) = d.val * b ^ ds.length + value b ds := by
  have h := foldl_value b ds (0 * b + d.val)
  simpa [value] using h

theorem head_digit {w n : ℕ} (h : n < b ^ (w + 1)) : n / b ^ w < b := by
  have hb : 0 < b ^ w := Nat.pow_pos (NeZero.pos b)
  rw [Nat.div_lt_iff_lt_mul hb]
  rwa [pow_succ'] at h

theorem value_bigEndian {w n : ℕ} (h : n < b ^ w) : value b (bigEndian b w n) = n := by
  induction w generalizing n with
  | zero => simp_all [bigEndian, value]
  | succ w ih =>
    have hb : 0 < b ^ w := Nat.pow_pos (NeZero.pos b)
    rw [bigEndian, value_cons, ih (Nat.mod_lt _ hb), bigEndian_length, Fin.val_ofNat,
      Nat.mod_eq_of_lt (head_digit b h)]
    exact Nat.div_add_mod' n (b ^ w)

omit [NeZero b] in
theorem value_lt (ds : List (Fin b)) : value b ds < b ^ ds.length := by
  induction ds with
  | nil => simp [value]
  | cons d ds ih =>
    have hd : (d.val + 1) * b ^ ds.length ≤ b * b ^ ds.length := Nat.mul_le_mul_right _ d.isLt
    rw [value_cons, List.length_cons, pow_succ']
    rw [Nat.add_mul, Nat.one_mul] at hd
    omega

theorem bigEndian_value (ds : List (Fin b)) : bigEndian b ds.length (value b ds) = ds := by
  induction ds with
  | nil => rfl
  | cons d ds ih =>
    have hb : 0 < b ^ ds.length := Nat.pow_pos (NeZero.pos b)
    have hlt : value b ds < b ^ ds.length := value_lt b ds
    rw [List.length_cons, bigEndian, value_cons, Nat.mul_add_mod', Nat.mod_eq_of_lt hlt,
      ih]
    congr 1
    rw [Nat.mul_comm, Nat.mul_add_div hb, Nat.div_eq_of_lt hlt, Nat.add_zero]
    exact Fin.ofNat_val_eq_self d

theorem bigEndian_lt_iff {w n m : ℕ} (hn : n < b ^ w) (hm : m < b ^ w) :
    bigEndian b w n < bigEndian b w m ↔ n < m := by
  induction w generalizing n m with
  | zero => simp_all [bigEndian]
  | succ w ih =>
    have hb : 0 < b ^ w := Nat.pow_pos (NeZero.pos b)
    simp only [bigEndian, List.cons_lt_cons_iff]
    rw [ih (Nat.mod_lt _ hb) (Nat.mod_lt _ hb), Fin.lt_def, Fin.ext_iff, Fin.val_ofNat,
      Fin.val_ofNat, Nat.mod_eq_of_lt (head_digit b hn), Nat.mod_eq_of_lt (head_digit b hm)]
    have hn' := Nat.div_add_mod n (b ^ w)
    have hm' := Nat.div_add_mod m (b ^ w)
    have hmn := Nat.mod_lt n hb
    have hmm := Nat.mod_lt m hb
    constructor
    · rintro (h | ⟨h, h'⟩)
      · exact lt_of_not_ge fun hge => absurd (Nat.div_le_div_right (c := b ^ w) hge) (by omega)
      · rw [h] at hn'
        omega
    · intro h
      rcases lt_or_eq_of_le (Nat.div_le_div_right (c := b ^ w) h.le) with hlt | heq
      · exact .inl hlt
      · refine .inr ⟨heq, ?_⟩
        rw [heq] at hn'
        omega

end FixedWidth
