import Ssdb.Util.Strings

open Strings

/-- `data_ - buf` is `offset`, and `buf` is the `total` bytes allocated. -/
structure Buffer where
  buf : Bytes
  offset : Int
  size : Int
  total : Int
deriving DecidableEq

namespace Buffer

inductive Fault where
  | overflow
  | outside
  | overlap
  | null
deriving DecidableEq

/-- The result of an operation on `int`s. -/
def checked (v : Int) : Except Fault Int :=
  if -2147483648 ≤ v ∧ v ≤ 2147483647 then .ok v else .error .overflow

def atoi (s : Bytes) : Int := (strtoll s).1.toInt32.toInt

variable (B : Buffer)

def data : Bytes := (B.buf.drop B.offset.toNat).take B.size.toNat

def slot : Int := B.offset + B.size

def space : Int := B.total - B.offset - B.size

def decr (num : Int) : Buffer := { B with size := B.size - num, offset := B.offset + num }

def peek (i : Int) : Except Fault Byte :=
  if 0 ≤ i ∧ i < B.size then .ok (B.data.getD i.toNat 0) else .error .outside

def memchr (c : Byte) : Option ℕ := B.data.idxOf? c

def bytes (i len : Int) : Bytes := (B.data.drop i.toNat).take len.toNat

/-- `read_record` after the header line: `p` is the byte after the body. -/
def takeRecord (headLen bodyLen : Int) : Except Fault (Int × Option Bytes × Buffer) := do
  if B.size ≥ (← checked (headLen + bodyLen + 1)) then
    let c ← B.peek (headLen + bodyLen)
    if c = charByte '\n' then
      return (1, some (B.bytes headLen bodyLen), B.decr (headLen + bodyLen + 1))
    else if c = charByte '\r' then
      if B.size ≥ (← checked (headLen + bodyLen + 2)) then
        let c ← B.peek (headLen + bodyLen + 1)
        if c = charByte '\n' then
          return (1, some (B.bytes headLen bodyLen), B.decr (headLen + bodyLen + 2))
        else return (-1, none, B)
      else return (0, none, B)
    else return (-1, none, B)
  else return (0, none, B)

def readRecord : Except Fault (Int × Option Bytes × Buffer) :=
  match B.memchr (charByte '\n') with
  | none => return (0, none, B)
  | some i => do
    let headLen : Int := i + 1
    let c ← B.peek 0
    if !isdigit c then return (-1, none, B)
    else if (← checked (headLen + 1)) > 20 then return (-1, none, B)
    else
      let bodyLen := atoi (B.bytes 0 (headLen - 1))
      if bodyLen < 0 then return (-1, none, B)
      else B.takeRecord headLen bodyLen

structure Heap where
  malloc : ℕ → Bytes
  realloc : Bytes → ℕ → Option Bytes
  malloc_length : ∀ n, (malloc n).length = n
  realloc_length : ∀ {b n b'}, realloc b n = some b' → b'.length = n
  realloc_keeps : ∀ {b n b'}, realloc b n = some b' → b'.take (min b.length n) = b.take (min b.length n)

def new (H : Heap) (total : ℕ) : Buffer := ⟨H.malloc total, 0, 0, total⟩

def write (b : Bytes) (i : ℕ) (p : Bytes) : Bytes := b.take i ++ p ++ b.drop (i + p.length)

def nice : Except Fault Buffer :=
  if B.size = 0 ∨ B.offset > B.total / 2 then
    if B.size > 0 then
      -- `memcpy` must not be given ranges that overlap
      if B.offset < B.size then .error .overlap
      else return { B with buf := write B.buf 0 B.data, offset := 0 }
    else return { B with offset := 0 }
  else return B

def shrink (H : Heap) (total : Int) : Except Fault Buffer :=
  let total := if total ≤ 0 then 8 * 1024 else total
  if B.offset + B.size > total then return B
  else
    match H.realloc B.buf total.toNat with
    | none => .error .null
    | some p => return { B with buf := p, total := total }

def grow (H : Heap) : Except Fault (Int × Buffer) := do
  let n ← checked (
    if B.total < 8 * 1024 then 8 * 1024
    else if B.total < 512 * 1024 then 8 * B.total
    else 2 * B.total)
  match H.realloc B.buf n.toNat with
  | none => return (-1, B)
  | some p => return (n, { B with buf := p, total := n })

def makeRoom (H : Heap) (size : Int) : ℕ → Buffer → Except Fault (Bool × Buffer)
  | 0, B => return (true, B)
  | fuel + 1, B => do
    if size > B.space then
      let (ret, B) ← B.grow H
      if ret = -1 then return (false, B)
      else makeRoom H size fuel B
    else return (true, B)

def put (p : Bytes) : Except Fault Buffer :=
  if 0 ≤ B.slot ∧ B.slot + p.length ≤ B.total then
    return { B with buf := write B.buf B.slot.toNat p, size := B.size + p.length }
  else .error .outside

def append (H : Heap) (p : Bytes) : Except Fault (Int × Buffer) := do
  let size : Int := p.length
  let (enough, B) ← makeRoom H size (size - B.space).toNat B
  if !enough then return (-1, B)
  else return (size, ← B.put p)

def appendRecord (H : Heap) (s : Bytes) : Except Fault (Int × Buffer) := do
  let size ← checked (16 + s.length + 1)
  let (enough, B) ← makeRoom H size (size - B.space).toNat B
  if !enough then return (-1, B)
  else
    let len := digits s.length ++ [charByte '\n']
    return (len.length + s.length + 1, ← B.put (len ++ s ++ [charByte '\n']))

structure Valid : Prop where
  allocated : (B.buf.length : Int) = B.total
  offset : 0 ≤ B.offset
  size : 0 ≤ B.size
  within : B.offset + B.size ≤ B.total

/-- The sums made of the lengths of the header line and of the body stay in `int`. -/
def LengthsFit (headLen bodyLen : Int) : Prop :=
  headLen + bodyLen + 1 ≤ 2147483647 ∧
    (headLen + bodyLen + 1 ≤ B.size →
      B.data.getD (headLen + bodyLen).toNat 0 = charByte '\r' → headLen + bodyLen + 2 ≤ 2147483647)

def Fits : Prop := ∀ i, B.memchr (charByte '\n') = some i → isdigit (B.data.getD 0 0) = true →
  (i : Int) + 2 ≤ 2147483647 ∧
    ((i : Int) + 2 ≤ 20 → 0 ≤ atoi (B.data.take i) → B.LengthsFit (i + 1) (atoi (B.data.take i)))

def Returned (ret : Int) (s : Option Bytes) (B' : Buffer) : Prop :=
  ((ret = 0 ∨ ret = -1) ∧ B' = B) ∨
    ret = 1 ∧ ∃ header body terminator rest,
      B.data = header ++ charByte '\n' :: (body ++ (terminator ++ rest)) ∧
        charByte '\n' ∉ header ∧ atoi header = body.length ∧
        (terminator = [charByte '\n'] ∨ terminator = [charByte '\r', charByte '\n']) ∧
        s = some body ∧ B'.data = rest ∧
        B'.size + header.length + 1 + body.length + terminator.length = B.size

def Safe (r : Except Fault (Int × Option Bytes × Buffer)) : Prop :=
  ∃ ret s B', r = .ok (ret, s, B') ∧ B.Returned ret s B'

variable {B}

theorem ok_bind {α β : Type} (a : α) (f : α → Except Fault β) : (Except.ok a >>= f) = f a := rfl

theorem error_bind {α β : Type} (e : Fault) (f : α → Except Fault β) :
    (Except.error e >>= f) = Except.error e := rfl

theorem pure_ok {α : Type} (a : α) : (pure a : Except Fault α) = .ok a := rfl

theorem checked_ok {v : Int} (h : -2147483648 ≤ v) (h' : v ≤ 2147483647) : checked v = .ok v :=
  if_pos ⟨h, h'⟩

theorem checked_overflow {v : Int} (h : 2147483647 < v) : checked v = .error .overflow :=
  if_neg fun hv => absurd hv.2 (not_le.mpr h)

theorem data_length (h : B.Valid) : (B.data.length : Int) = B.size := by
  obtain ⟨halloc, hoff, hsize, hin⟩ := h
  rw [data, List.length_take, List.length_drop]
  omega

theorem peek_ok {i : Int} (h : 0 ≤ i) (h' : i < B.size) : B.peek i = .ok (B.data.getD i.toNat 0) :=
  if_pos ⟨h, h'⟩

theorem bytes_zero (i : ℕ) : B.bytes 0 ((i : Int) + 1 - 1) = B.data.take i := by
  rw [bytes, Int.add_sub_cancel]
  rfl

theorem decr_data {n : ℕ} (h : B.Valid) (hn : n ≤ B.size) : (B.decr n).data = B.data.drop n := by
  obtain ⟨-, hoff, -, -⟩ := h
  have ho : (B.offset + n).toNat = B.offset.toNat + n := by omega
  have hs : (B.size - n).toNat = B.size.toNat - n := by omega
  rw [data, data, decr, ho, hs, List.drop_take, List.drop_drop]

theorem decr_valid {n : Int} (h : B.Valid) (h0 : 0 ≤ n) (hn : n ≤ B.size) : (B.decr n).Valid := by
  obtain ⟨halloc, hoff, hsize, hin⟩ := h
  exact ⟨halloc, by simp only [decr]; omega, by simp only [decr]; omega,
    by simp only [decr]; omega⟩

theorem memchr_some {c : Byte} {i : ℕ} (h : B.memchr c = some i) :
    ∃ header rest, B.data = header ++ c :: rest ∧ header.length = i ∧ c ∉ header := by
  obtain ⟨hlt, hc, hbefore⟩ := List.idxOf?_eq_some_iff.mp h
  refine ⟨B.data.take i, B.data.drop (i + 1), ?_, ?_, ?_⟩
  · rw [← hc, List.getElem_cons_drop, List.take_append_drop]
  · rw [List.length_take]
    omega
  · intro hmem
    obtain ⟨j, hj, rfl⟩ := List.mem_take_iff_getElem.mp hmem
    exact hbefore j (by omega) rfl

theorem getD_after {header after : Bytes} (hdata : B.data = header ++ charByte '\n' :: after)
    (k : ℕ) : B.data.getD (header.length + 1 + k) 0 = after.getD k 0 := by
  rw [hdata, List.getD_eq_getElem?_getD, List.getD_eq_getElem?_getD, Nat.add_assoc,
    List.getElem?_append_right (by omega), Nat.add_sub_cancel_left, Nat.add_comm 1 k,
    List.getElem?_cons_succ]

theorem drop_header {header after : Bytes} (hdata : B.data = header ++ charByte '\n' :: after) :
    B.data.drop (header.length + 1) = after := by
  rw [hdata, ← List.drop_drop, List.drop_left]
  rfl

theorem bytes_after {header after : Bytes} (hdata : B.data = header ++ charByte '\n' :: after)
    (n : ℕ) : B.bytes (header.length + 1) n = after.take n := by
  have hh : ((header.length : Int) + 1).toNat = header.length + 1 := by omega
  rw [bytes, hh, drop_header hdata, Int.toNat_natCast]

theorem safe_unchanged (ret : Int) (h : ret = 0 ∨ ret = -1) :
    B.Safe (.ok (ret, none, B)) := ⟨ret, none, B, rfl, .inl ⟨h, rfl⟩⟩

theorem not_safe_error (f : Fault) : ¬ B.Safe (.error f) := by
  rintro ⟨ret, s, B', h, -⟩
  exact absurd h (by simp)

theorem safe_taken (h : B.Valid) {header after terminator : Bytes} {n : ℕ}
    (hdata : B.data = header ++ charByte '\n' :: after) (hline : charByte '\n' ∉ header)
    (hbody : atoi header = n)
    (hterm : terminator = [charByte '\n'] ∨ terminator = [charByte '\r', charByte '\n'])
    (hend : ∃ rest, after.drop n = terminator ++ rest) (hn : n ≤ after.length)
    {num : Int} (hnum : num = header.length + 1 + n + terminator.length) :
    B.Safe (.ok (1, some (B.bytes (header.length + 1) n), B.decr num)) := by
  obtain ⟨rest, hrest⟩ := hend
  have hafter : after = after.take n ++ (terminator ++ rest) := by
    rw [← hrest, List.take_append_drop]
  have hlen : (after.take n).length = n := by rw [List.length_take]; omega
  have hsize := data_length h
  have htotal : B.data.length =
      header.length + 1 + n + terminator.length + rest.length := by
    rw [hdata, hafter]
    simp only [List.length_append, List.length_cons, hlen]
    omega
  obtain rfl : num = ((header.length + 1 + n + terminator.length : ℕ) : Int) := by
    rw [hnum]
    push_cast
    rfl
  refine ⟨1, _, _, rfl, .inr ⟨rfl, header, after.take n, terminator, rest, ?_, hline, ?_, hterm,
    congrArg some (bytes_after hdata n), ?_, ?_⟩⟩
  · rw [← hafter, hdata]
  · rw [hbody, hlen]
  · rw [decr_data h (by omega), Nat.add_assoc, ← List.drop_drop, drop_header hdata, ← List.drop_drop, hrest,
      List.drop_left]
  · simp only [decr, hlen]
    omega

theorem drop_getD {l : Bytes} {i : ℕ} (h : i < l.length) : ∃ rest, l.drop i = l.getD i 0 :: rest := by
  refine ⟨l.drop (i + 1), ?_⟩
  rw [List.getD_eq_getElem?_getD, List.getElem?_eq_getElem h, Option.getD_some,
    List.getElem_cons_drop]

theorem takeRecord_safe (h : B.Valid) {header after : Bytes} {n : ℕ}
    (hdata : B.data = header ++ charByte '\n' :: after) (hline : charByte '\n' ∉ header)
    (hbody : atoi header = n) :
    B.Safe (B.takeRecord (header.length + 1) n) ↔ B.LengthsFit (header.length + 1) n := by
  have hsize := data_length h
  have hlen : B.data.length = header.length + 1 + after.length := by
    rw [hdata, List.length_append, List.length_cons]
    omega
  have hget := getD_after hdata
  have hat : ((header.length : Int) + 1 + n).toNat = header.length + 1 + n := by omega
  have hat' : ((header.length : Int) + 1 + n + 1).toNat = header.length + 1 + (n + 1) := by omega
  rw [takeRecord, LengthsFit]
  by_cases h1 : (header.length : Int) + 1 + n + 1 ≤ 2147483647
  · rw [checked_ok (by omega) h1, ok_bind]
    simp only [h1, true_and, ge_iff_le]
    by_cases h2 : (header.length : Int) + 1 + n + 1 ≤ B.size
    · obtain ⟨rest, hrest⟩ := drop_getD (l := after) (i := n) (by omega)
      rw [if_pos h2, peek_ok (by omega) (by omega), ok_bind, hat, hget]
      simp only [h2, true_implies]
      by_cases hn : after.getD n 0 = charByte '\n'
      · -- the body ends in a line feed
        have hr : after.getD n 0 ≠ charByte '\r' := by rw [hn]; decide
        rw [if_pos hn, pure_ok]
        refine iff_of_true ?_ fun hcr => absurd hcr hr
        exact safe_taken h hdata hline hbody (.inl rfl) ⟨rest, by rw [hrest, hn]; rfl⟩ (by omega)
          (by simp)
      · rw [if_neg hn]
        by_cases hr : after.getD n 0 = charByte '\r'
        · rw [if_pos hr]
          simp only [hr, true_implies]
          by_cases h3 : (header.length : Int) + 1 + n + 2 ≤ 2147483647
          · rw [checked_ok (by omega) h3, ok_bind]
            refine iff_of_true ?_ h3
            by_cases h4 : (header.length : Int) + 1 + n + 2 ≤ B.size
            · obtain ⟨rest', hrest'⟩ := drop_getD (l := after) (i := n + 1) (by omega)
              rw [if_pos h4, peek_ok (by omega) (by omega), ok_bind, hat', hget]
              by_cases hn' : after.getD (n + 1) 0 = charByte '\n'
              · rw [if_pos hn', pure_ok]
                refine safe_taken h hdata hline hbody (.inr rfl) ⟨rest', ?_⟩ (by omega)
                  (by simp only [List.length_cons, List.length_nil]; push_cast; ring)
                have htail : after.drop (n + 1) = rest := by
                  rw [← List.drop_drop, hrest]
                  rfl
                rw [hrest, hr, ← htail, hrest', hn']
                rfl
              · rw [if_neg hn', pure_ok]
                exact safe_unchanged (-1) (.inr rfl)
            · rw [if_neg h4, pure_ok]
              exact safe_unchanged 0 (.inl rfl)
          · rw [checked_overflow (by omega), error_bind]
            exact iff_of_false (not_safe_error _) h3
        · rw [if_neg hr, pure_ok]
          exact iff_of_true (safe_unchanged (-1) (.inr rfl)) fun hcr => absurd hcr hr
    · rw [if_neg h2, pure_ok]
      exact iff_of_true (safe_unchanged 0 (.inl rfl)) fun hin => absurd hin h2
  · rw [checked_overflow (by omega), error_bind]
    exact iff_of_false (not_safe_error _) fun h => h1 h.1

/-- A read keeps inside the data, and its sums inside `int`, exactly when the length the header
gives is not too great. -/
theorem readRecord_safe (h : B.Valid) (hsize : B.size < 2 ^ 31) :
    B.Safe B.readRecord ↔ B.Fits := by
  have hdlen := data_length h
  rw [readRecord]
  cases hm : B.memchr (charByte '\n') with
  | none =>
    refine iff_of_true (safe_unchanged 0 (.inl rfl)) fun i hi => ?_
    exact absurd (hm.symm.trans hi) (by simp)
  | some i =>
    obtain ⟨header, after, hdata, hlen, hline⟩ := memchr_some hm
    have hlong : B.data.length = i + 1 + after.length := by
      rw [hdata, List.length_append, List.length_cons, hlen]
      omega
    have htake : B.data.take i = header := by rw [hdata, ← hlen, List.take_left]
    have hfits : B.Fits ↔ (isdigit (B.data.getD 0 0) = true → (i : Int) + 2 ≤ 2147483647 ∧
        ((i : Int) + 2 ≤ 20 → 0 ≤ atoi header → B.LengthsFit (i + 1) (atoi header))) := by
      constructor
      · intro hf
        have hfi := hf i hm
        rwa [htake] at hfi
      · intro hf j hj
        obtain rfl : i = j := Option.some.inj (hm.symm.trans hj)
        rwa [htake]
    have hpeek := peek_ok (B := B) le_rfl (by omega : (0 : Int) < B.size)
    rw [Int.toNat_zero] at hpeek
    simp only [hfits, hpeek, ok_bind, bytes_zero, htake]
    by_cases hd : isdigit (B.data.getD 0 0) = true
    · simp only [hd, Bool.not_true, Bool.false_eq_true, if_false, true_implies]
      have htwo : (i : Int) + 1 + 1 = i + 2 := by omega
      rw [htwo]
      by_cases h1 : (i : Int) + 2 ≤ 2147483647
      · rw [checked_ok (by omega) h1, ok_bind]
        simp only [h1, true_and]
        by_cases h2 : (i : Int) + 2 ≤ 20
        · rw [if_neg (not_lt.mpr h2)]
          simp only [h2, true_implies]
          by_cases hv : 0 ≤ atoi header
          · obtain ⟨n, hn⟩ := Int.eq_ofNat_of_zero_le hv
            have htaken := takeRecord_safe h hdata hline hn
            rw [hlen] at htaken
            rw [if_neg (not_lt.mpr hv), hn, htaken]
            exact ⟨fun hfit _ => hfit, fun hfit => hfit (Int.natCast_nonneg n)⟩
          · rw [if_pos (not_le.mp hv), pure_ok]
            exact iff_of_true (safe_unchanged (-1) (.inr rfl)) fun hpos => absurd hpos hv
        · rw [if_pos (not_le.mp h2), pure_ok]
          exact iff_of_true (safe_unchanged (-1) (.inr rfl)) fun hle => absurd hle h2
      · rw [checked_overflow (by omega), error_bind]
        exact iff_of_false (not_safe_error _) fun h => h1 h.1
    · rw [Bool.not_eq_true] at hd
      simp only [hd, Bool.not_false, if_true, Bool.false_eq_true, false_implies, iff_true, pure_ok]
      exact safe_unchanged (-1) (.inr rfl)

theorem readRecord_safe_record :
    (Buffer.mk (asBytes "3\nabc\n4") 0 7 7).Safe (Buffer.mk (asBytes "3\nabc\n4") 0 7 7).readRecord ↔
      (Buffer.mk (asBytes "3\nabc\n4") 0 7 7).Fits :=
  readRecord_safe ⟨by decide, by decide, by decide, by decide⟩ (by decide)

theorem readRecord_overflows : ¬ (Buffer.mk (asBytes "2147483647\n") 0 11 11).Safe
    (Buffer.mk (asBytes "2147483647\n") 0 11 11).readRecord := by
  have herror : (Buffer.mk (asBytes "2147483647\n") 0 11 11).readRecord = .error .overflow := by
    decide +kernel
  rw [herror]
  exact not_safe_error _

end Buffer
