import Ssdb.Util.Strings

namespace Strings

def int (n : ℕ) : Int := (Int32.ofNat n).toInt

def char (c : Byte) : Int := (c.val : Int).bmod 256

def hex (d : ℕ) : Byte := (asBytes "0123456789abcdef").getD d 0

def escapeByte (c : Byte) : Bytes :=
  if c = charByte '\r' then asBytes "\\r"
  else if c = charByte '\n' then asBytes "\\n"
  else if c = charByte '\t' then asBytes "\\t"
  else if c = charByte '\\' then asBytes "\\\\"
  else if c = charByte ' ' then [c]
  else if char c ≥ char (charByte '!') ∧ char c ≤ char (charByte '~') then [c]
  else asBytes "\\x" ++ [hex (c.val >>> 4), hex (c.val &&& 0x0f)]

/-- `str_escape(const char *s, int size, std::string *ret)` -/
def escapeTo (s : Bytes) (size : Int) (ret : Bytes) : Bytes :=
  (s.take size.toNat).foldl (fun ret c => ret ++ escapeByte c) ret

/-- `(size < 20)? 32 : (size * 1.2)` as an `int`, which the product leaves from 1789569707 on. -/
def capacity (size : Int) : Option Int :=
  if size < 20 then some 32 else if size * 6 / 5 < 2 ^ 31 then some (size * 6 / 5) else none

/-- `ret.reserve(n)`; a negative count throws. -/
def reserve (n : Int) : Option Unit := if n < 0 then none else some ()

def strEscape (s : Bytes) : Option Bytes := do
  let capacity ← capacity (int s.length)
  reserve capacity
  return escapeTo s (int s.length) []

def hexInt (c : Byte) : Int :=
  if char c ≥ char (charByte '0') ∧ char c ≤ char (charByte '9') then char c - char (charByte '0')
  else char c - char (charByte 'a') + 10

def hexByte (c3 c4 : Byte) : Byte := Fin.ofNat 256 ((hexInt c3 * 2 ^ 4 + hexInt c4) % 256).toNat

def escaped (c2 : Byte) : Byte :=
  if c2 = charByte 'a' then 7
  else if c2 = charByte 'b' then 8
  else if c2 = charByte 'f' then 12
  else if c2 = charByte 'v' then 11
  else if c2 = charByte 'r' then charByte '\r'
  else if c2 = charByte 'n' then charByte '\n'
  else if c2 = charByte 't' then charByte '\t'
  else if c2 = charByte '\\' then charByte '\\'
  else c2

def unescape : Bytes → Bytes
  | [] => []
  | c :: s =>
    if c ≠ charByte '\\' then c :: unescape s
    else
      match s with
      | [] => []
      | c2 :: s =>
        if c2 = charByte 'x' then
          -- with fewer than two bytes left the loop goes on right after the `x`
          match s with
          | c3 :: c4 :: s => hexByte c3 c4 :: unescape s
          | s => unescape s
        else escaped c2 :: unescape s

def strUnescape (s : Bytes) : Option Bytes := do
  reserve (int s.length)
  return unescape (s.take (int s.length).toNat)

theorem int_size {n : ℕ} (h : n < 2 ^ 31) : int n = n := Int32.toInt_ofNat_of_lt h

theorem take_int (s : Bytes) (h : s.length < 2 ^ 31) : s.take (int s.length).toNat = s := by
  rw [int_size h, Int.toNat_natCast, List.take_length]

theorem foldl_escapeByte (s ret : Bytes) :
    s.foldl (fun ret c => ret ++ escapeByte c) ret = ret ++ s.flatMap escapeByte := by
  induction s generalizing ret with
  | nil => simp
  | cons c s ih => simp [ih]

theorem hexByte_hex : ∀ c : Byte, hexByte (hex (c.val >>> 4)) (hex (c.val &&& 0x0f)) = c := by
  decide +kernel

theorem escapeByte_cases (c : Byte) :
    (escapeByte c = [c] ∧ c ≠ charByte '\\') ∨
    (∃ c2, escapeByte c = [charByte '\\', c2] ∧ c2 ≠ charByte 'x' ∧ escaped c2 = c) ∨
    ∃ c3 c4, escapeByte c = [charByte '\\', charByte 'x', c3, c4] ∧ hexByte c3 c4 = c := by
  unfold escapeByte
  split_ifs with hr hn ht hb hs hp
  · exact .inr (.inl ⟨charByte 'r', rfl, by decide, by rw [hr]; decide⟩)
  · exact .inr (.inl ⟨charByte 'n', rfl, by decide, by rw [hn]; decide⟩)
  · exact .inr (.inl ⟨charByte 't', rfl, by decide, by rw [ht]; decide⟩)
  · exact .inr (.inl ⟨charByte '\\', rfl, by decide, by rw [hb]; decide⟩)
  · exact .inl ⟨rfl, hb⟩
  · exact .inl ⟨rfl, hb⟩
  · exact .inr (.inr ⟨_, _, rfl, hexByte_hex c⟩)

theorem unescape_plain {c : Byte} (h : c ≠ charByte '\\') (s : Bytes) :
    unescape (c :: s) = c :: unescape s := by
  rw [unescape.eq_def]
  exact if_pos h

theorem unescape_letter {c2 : Byte} (h : c2 ≠ charByte 'x') (s : Bytes) :
    unescape (charByte '\\' :: c2 :: s) = escaped c2 :: unescape s := by
  rw [unescape.eq_def]
  exact if_neg h

theorem unescape_hex (c3 c4 : Byte) (s : Bytes) :
    unescape (charByte '\\' :: charByte 'x' :: c3 :: c4 :: s) = hexByte c3 c4 :: unescape s := by
  rw [unescape.eq_def]
  rfl

theorem unescape_escapeByte (c : Byte) (s : Bytes) :
    unescape (escapeByte c ++ s) = c :: unescape s := by
  obtain ⟨he, hc⟩ | ⟨c2, he, hx, hc⟩ | ⟨c3, c4, he, hc⟩ := escapeByte_cases c
  · rw [he]
    exact unescape_plain hc s
  · rw [he, ← hc]
    exact unescape_letter hx s
  · rw [he, ← hc]
    exact unescape_hex c3 c4 s

theorem unescape_flatMap (s : Bytes) : unescape (s.flatMap escapeByte) = s := by
  induction s with
  | nil => rfl
  | cons c s ih => rw [List.flatMap_cons, unescape_escapeByte, ih]

theorem newline_not_mem_escapeByte : ∀ c : Byte, charByte '\n' ∉ escapeByte c := by
  decide +kernel

theorem escapeTo_eq (s : Bytes) (size : Int) (ret : Bytes) :
    escapeTo s size ret = ret ++ (s.take size.toNat).flatMap escapeByte := foldl_escapeByte _ _

theorem capacity_isSome {size : Int} (h : size ≤ 1789569706) :
    ∃ n, capacity size = some n ∧ 0 ≤ n := by
  rw [capacity]
  split_ifs with hshort hfit
  · exact ⟨32, rfl, by decide⟩
  · exact ⟨_, rfl, by omega⟩
  · omega

theorem strEscape_eq (s : Bytes) (h : s.length ≤ 1789569706) :
    strEscape s = some (s.flatMap escapeByte) := by
  have hint : s.length < 2 ^ 31 := by omega
  have hsize : int s.length ≤ 1789569706 := by
    rw [int_size hint]
    omega
  obtain ⟨n, hn, h0⟩ := capacity_isSome hsize
  have hreserve : reserve n = some () := if_neg (by omega)
  simp only [strEscape, hn, Option.bind_eq_bind, Option.bind_some, hreserve, escapeTo_eq,
    take_int s hint, List.nil_append]
  rfl

theorem newline_not_mem_flatMap (s : Bytes) : charByte '\n' ∉ s.flatMap escapeByte := by
  intro h
  obtain ⟨c, -, hc⟩ := List.mem_flatMap.mp h
  exact newline_not_mem_escapeByte c hc

theorem newline_not_mem_strEscape {s text : Bytes} (h : strEscape s = some text) :
    charByte '\n' ∉ text := by
  obtain ⟨n, -, h⟩ := Option.bind_eq_some_iff.mp h
  obtain ⟨-, -, h⟩ := Option.bind_eq_some_iff.mp h
  obtain rfl : escapeTo s (int s.length) [] = text := Option.some.inj h
  rw [escapeTo_eq, List.nil_append]
  exact newline_not_mem_flatMap _

theorem strUnescape_escaped (s : Bytes) (h : (s.flatMap escapeByte).length < 2 ^ 31) :
    strUnescape (s.flatMap escapeByte) = some s := by
  have hreserve : reserve (int (s.flatMap escapeByte).length) = some () :=
    if_neg (by rw [int_size h]; omega)
  simp only [strUnescape, hreserve, take_int _ h, unescape_flatMap]
  rfl

end Strings
