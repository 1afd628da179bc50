import Mathlib.Data.List.TakeWhile
import Ssdb.Util.Bytes

namespace Strings

def charByte (c : Char) : Byte := Fin.ofNat 256 c.toNat

def asBytes (s : String) : Bytes := s.toList.map charByte

def digits (n : ℕ) : Bytes := (Nat.toDigits 10 n).map charByte

def str (v : Int64) : Bytes :=
  if v.toInt < 0 then charByte '-' :: digits v.toInt.natAbs else digits v.toInt.natAbs

def isspace (c : Byte) : Bool := decide (c.val = 32 ∨ 9 ≤ c.val ∧ c.val ≤ 13)

def isdigit (c : Byte) : Bool := decide (48 ≤ c.val ∧ c.val ≤ 57)

def decimal (ds : Bytes) : ℕ := ds.foldl (fun n d => 10 * n + (d.val - 48)) 0

def clamp (v : Int) : Int64 :=
  if v < Int64.minValue.toInt then Int64.minValue
  else if Int64.maxValue.toInt < v then Int64.maxValue
  else Int64.ofInt v

def sign (s : Bytes) : Bool × Bytes :=
  match s with
  | c :: r => if c = charByte '-' then (true, r) else if c = charByte '+' then (false, r) else (false, s)
  | [] => (false, [])

/-- The C library's conversion in base ten: the value, out of range values moved to the nearer
end of `int64_t`, and the number of bytes read. -/
def strtoll (s : Bytes) : Int64 × ℕ :=
  let body := sign (s.dropWhile isspace)
  let ds := body.2.takeWhile isdigit
  if ds = [] then (0, 0)
  else
    let v : Int := decimal ds
    (clamp (if body.1 then -v else v), s.length - (body.2.length - ds.length))

/-- The value and whether `errno` is left at zero: the whole string must be an integer, and an
out of range one leaves no error. -/
def strToInt64 (s : Bytes) : Int64 × Bool :=
  let r := strtoll s
  (r.1, r.2 = s.length)

def int64 (s : Bytes) : Int64 := (strToInt64 s).1

theorem isDigit_bounds {c : Char} (h : c.isDigit = true) : 48 ≤ c.toNat ∧ c.toNat ≤ 57 := by
  simp only [Char.isDigit, Bool.and_eq_true, decide_eq_true_eq, ge_iff_le,
    UInt32.le_iff_toNat_le] at h
  exact h

theorem digits_isdigit {n : ℕ} {c : Byte} (h : c ∈ digits n) : isdigit c = true := by
  simp only [digits, List.mem_map] at h
  obtain ⟨ch, hch, rfl⟩ := h
  obtain ⟨h1, h2⟩ := isDigit_bounds (Nat.isDigit_of_mem_toDigits (by omega) (by omega) hch)
  refine decide_eq_true ?_
  simp only [charByte, Fin.val_ofNat]
  omega

theorem digits_ne_nil (n : ℕ) : digits n ≠ [] := by
  simp [digits]

theorem decimal_digits (n : ℕ) : decimal (digits n) = n := by
  have key : ∀ (cs : List Char) (m : ℕ), (∀ c ∈ cs, c.isDigit = true) →
      (cs.map charByte).foldl (fun n d => 10 * n + (d.val - 48)) m = Nat.ofDigitChars 10 cs m := by
    intro cs
    induction cs with
    | nil => simp
    | cons c cs ih =>
      intro m hc
      have hd := isDigit_bounds (hc c (by simp))
      have hb : (charByte c).val = c.toNat := Nat.mod_eq_of_lt (by omega)
      rw [List.map_cons, List.foldl_cons, hb, Nat.ofDigitChars_cons]
      exact ih _ (fun c h => hc c (by simp [h]))
  rw [decimal, digits, key _ _ (fun c hc => Nat.isDigit_of_mem_toDigits (by omega) (by omega) hc),
    Nat.ofDigitChars_ten_toDigits]

theorem takeWhile_digits (n : ℕ) : (digits n).takeWhile isdigit = digits n :=
  List.takeWhile_eq_self_iff.mpr fun _ h => digits_isdigit h

theorem isdigit_not_space {c : Byte} (h : isdigit c = true) : isspace c = false := by
  simp only [isdigit, decide_eq_true_eq] at h
  simp only [isspace, decide_eq_false_iff_not]
  omega

theorem sign_digits (n : ℕ) : sign (digits n) = (false, digits n) := by
  cases hd : digits n with
  | nil => rfl
  | cons c r =>
    have hc : isdigit c = true := digits_isdigit (n := n) (by simp [hd])
    have hm : c ≠ charByte '-' := fun h => by rw [h] at hc; exact absurd hc (by decide)
    have hp : c ≠ charByte '+' := fun h => by rw [h] at hc; exact absurd hc (by decide)
    simp [sign, hm, hp]

theorem clamp_toInt (v : Int64) : clamp v.toInt = v := by
  have h1 := v.le_toInt
  have h2 := v.toInt_lt
  rw [clamp, if_neg, if_neg, Int64.ofInt_toInt]
  · rw [Int64.toInt_maxValue]
    omega
  · rw [Int64.toInt_minValue]
    omega

theorem strtoll_str (v : Int64) : strtoll (str v) = (v, (str v).length) := by
  by_cases hv : v.toInt < 0
  · have hsp : (str v).dropWhile isspace = charByte '-' :: digits v.toInt.natAbs := by
      rw [str, if_pos hv]
      rfl
    have habs : -(v.toInt.natAbs : Int) = v.toInt := by omega
    have hlen : (str v).length = (digits v.toInt.natAbs).length + 1 := by simp [str, hv]
    rw [strtoll, hsp]
    simp only [sign, if_true, takeWhile_digits, if_neg (digits_ne_nil _), decimal_digits, habs,
      clamp_toInt, Nat.sub_self, Nat.sub_zero]
  · have habs : (v.toInt.natAbs : Int) = v.toInt := by omega
    have hstr : str v = digits v.toInt.natAbs := by simp [str, hv]
    have hsp : (digits v.toInt.natAbs).dropWhile isspace = digits v.toInt.natAbs := by
      cases hd : digits v.toInt.natAbs with
      | nil => rfl
      | cons c r =>
        have hc : isdigit c = true := digits_isdigit (n := v.toInt.natAbs) (by simp [hd])
        simp [isdigit_not_space hc]
    rw [strtoll, hstr, hsp, sign_digits]
    simp only [takeWhile_digits, if_neg (digits_ne_nil _), decimal_digits, habs, clamp_toInt,
      Bool.false_eq_true, if_false, Nat.sub_self, Nat.sub_zero]

theorem strToInt64_str (v : Int64) : strToInt64 (str v) = (v, true) := by
  simp [strToInt64, strtoll_str]

@[simp] theorem int64_str (v : Int64) : int64 (str v) = v := by
  simp [int64, strToInt64_str]

theorem str_injective {u v : Int64} (h : str u = str v) : u = v := by
  rw [← int64_str u, h, int64_str]

theorem str_inj {u v : Int64} : str u = str v ↔ u = v := ⟨str_injective, congrArg str⟩

theorem str_ne_nil (v : Int64) : str v ≠ [] := by
  simp only [str]
  split_ifs
  · simp
  · exact digits_ne_nil _

end Strings
