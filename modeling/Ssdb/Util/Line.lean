import Ssdb.Util.Escape

open Strings

structure LineEncoder where
  val : Bytes

namespace LineEncoder

def new : LineEncoder := ⟨[]⟩

def write (e : LineEncoder) (data : Bytes) : Option LineEncoder := do
  let text ← strEscape data
  return ⟨e.val ++ text ++ [charByte '\n']⟩

def written (strings : List Bytes) : Option Bytes := do
  let e ← strings.foldlM write new
  return e.val

def lines (strings : List Bytes) : Bytes :=
  strings.flatMap (fun s => s.flatMap escapeByte ++ [charByte '\n'])

theorem foldlM_write {strings : List Bytes} (h : ∀ s ∈ strings, s.length ≤ 1789569706)
    (e : LineEncoder) : strings.foldlM write e = some ⟨e.val ++ lines strings⟩ := by
  induction strings generalizing e with
  | nil => simp [lines]
  | cons s strings ih =>
    have hone : write e s = some ⟨e.val ++ s.flatMap escapeByte ++ [charByte '\n']⟩ := by
      rw [write, strEscape_eq s (h s (by simp))]
      rfl
    rw [List.foldlM_cons, hone, Option.bind_eq_bind, Option.bind_some,
      ih (fun t ht => h t (by simp [ht]))]
    simp only [lines, List.flatMap_cons, List.append_assoc]

theorem written_eq {strings : List Bytes} (h : ∀ s ∈ strings, s.length ≤ 1789569706) :
    written strings = some (lines strings) := by
  rw [written, foldlM_write h]
  rfl

end LineEncoder

structure LineDecoder where
  buf : Bytes
  len : Int
  spos : ℕ
  epos : ℕ

namespace LineDecoder

def new (s : Bytes) : LineDecoder := ⟨s, int s.length, 0, 0⟩

def findEnd (buf : Bytes) : ℕ → ℕ → ℕ
  | 0, epos => epos
  | left + 1, epos => if buf.getD epos 0 ≠ charByte '\n' then findEnd buf left (epos + 1) else epos

/-- What is returned, what `*ret` holds and the decoder afterwards. -/
def read (d : LineDecoder) (ret : Bytes) : Option (Int × Bytes × LineDecoder) :=
  let epos := findEnd d.buf (d.len - d.epos).toNat d.epos
  if (epos : Int) ≥ d.len ∨ d.buf.getD epos 0 ≠ charByte '\n' then
    some (-1, ret, ⟨d.buf, d.len, d.spos, epos⟩)
  else do
    let line := (d.buf.drop d.spos).take (epos - d.spos)
    let ret ← strUnescape line
    return (int ret.length, ret, ⟨d.buf, d.len, epos + 1, epos + 1⟩)

def reads : ℕ → LineDecoder → Option (List (Int × Bytes))
  | 0, _ => some []
  | n + 1, d => do
    let (r, ret, d) ← d.read []
    let rest ← reads n d
    return (r, ret) :: rest

structure Facing (d : LineDecoder) (rest : Bytes) : Prop where
  text : ∃ done, d.buf = done ++ rest ∧ d.spos = done.length
  scanned : d.epos = d.spos
  len : d.len = d.buf.length
  short : d.buf.length < 2 ^ 31

theorem facing_new (s : Bytes) (h : s.length < 2 ^ 31) : Facing (new s) s :=
  ⟨⟨[], rfl, rfl⟩, rfl, int_size h, h⟩

theorem getD_append (done rest : Bytes) (i : ℕ) :
    (done ++ rest).getD (done.length + i) 0 = rest.getD i 0 := by
  rw [List.getD_eq_getElem?_getD, List.getD_eq_getElem?_getD,
    List.getElem?_append_right (by omega), Nat.add_sub_cancel_left]

theorem findEnd_line (done line rest : Bytes) (left : ℕ) (hn : charByte '\n' ∉ line)
    (hl : line.length < left) :
    findEnd (done ++ (line ++ charByte '\n' :: rest)) left done.length =
      done.length + line.length := by
  induction line generalizing done left with
  | nil =>
    obtain ⟨left, rfl⟩ := Nat.exists_eq_succ_of_ne_zero (by omega : left ≠ 0)
    have h0 := getD_append done (charByte '\n' :: rest) 0
    simp only [Nat.add_zero, List.getD_cons_zero] at h0
    rw [findEnd, List.nil_append, h0, if_neg (by simp)]
    simp
  | cons c line ih =>
    simp only [List.mem_cons, not_or] at hn
    simp only [List.length_cons] at hl
    obtain ⟨left, rfl⟩ := Nat.exists_eq_succ_of_ne_zero (by omega : left ≠ 0)
    have h0 := getD_append done (c :: line ++ charByte '\n' :: rest) 0
    simp only [Nat.add_zero, List.cons_append, List.getD_cons_zero] at h0
    have hnext := ih (done ++ [c]) left hn.2 (by omega)
    simp only [List.length_append, List.append_assoc, List.singleton_append,
      List.length_singleton] at hnext
    rw [findEnd, List.cons_append, h0, if_pos (Ne.symm hn.1), hnext, List.length_cons]
    omega

theorem read_line {d : LineDecoder} {s rest : Bytes} (hs : s.length < 2 ^ 31)
    (h : Facing d (s.flatMap escapeByte ++ charByte '\n' :: rest)) :
    ∃ d', d.read [] = some ((s.length : Int), s, d') ∧ Facing d' rest := by
  obtain ⟨⟨done, hbuf, hspos⟩, hscan, hlen, hshort⟩ := h
  generalize hline : s.flatMap escapeByte = line at hbuf
  have hfree : charByte '\n' ∉ line := hline ▸ newline_not_mem_flatMap s
  have hsize : d.buf.length = done.length + line.length + 1 + rest.length := by
    rw [hbuf]
    simp only [List.length_append, List.length_cons]
    omega
  have hend : findEnd d.buf (d.len - d.epos).toNat d.epos = done.length + line.length := by
    rw [hbuf, hscan, hspos]
    exact findEnd_line _ _ _ _ hfree (by omega)
  have hfeed : d.buf.getD (done.length + line.length) 0 = charByte '\n' := by
    have h0 := getD_append (done ++ line) (charByte '\n' :: rest) 0
    rw [hbuf, ← List.append_assoc, ← List.length_append]
    exact h0
  have htaken : (d.buf.drop d.spos).take (done.length + line.length - d.spos) = line := by
    rw [hspos, hbuf, List.drop_left, Nat.add_sub_cancel_left, List.take_left]
  have hin : ¬(((done.length + line.length : ℕ) : Int) ≥ d.len ∨
      d.buf.getD (done.length + line.length) 0 ≠ charByte '\n') := by
    rw [hfeed, hlen, hsize]
    simp only [ne_eq, not_true_eq_false, or_false]
    omega
  have hback : strUnescape line = some s := by
    rw [← hline]
    exact strUnescape_escaped s (by rw [hline]; omega)
  refine ⟨⟨d.buf, d.len, done.length + line.length + 1, done.length + line.length + 1⟩, ?_, ?_⟩
  · rw [read, hend]
    simp only [if_neg hin, htaken, hback, Option.bind_eq_bind, Option.bind_some, int_size hs]
    rfl
  · refine ⟨⟨done ++ line ++ [charByte '\n'], ?_, ?_⟩, rfl, hlen, hshort⟩
    · rw [hbuf]
      simp
    · simp only [List.length_append, List.length_singleton]

theorem read_end {d : LineDecoder} (h : Facing d []) : d.read [] = some (-1, [], d) := by
  obtain ⟨⟨done, hbuf, hspos⟩, hscan, hlen, -⟩ := h
  have hsize : d.buf.length = done.length := by rw [hbuf, List.append_nil]
  have hleft : (d.len - d.epos).toNat = 0 := by omega
  have hend : findEnd d.buf (d.len - d.epos).toNat d.epos = d.epos := by
    rw [hleft]
    rfl
  rw [read, hend]
  exact if_pos (Or.inl (by omega))

theorem reads_end {d : LineDecoder} (h : Facing d []) (n : ℕ) :
    reads n d = some (List.replicate n (-1, [])) := by
  induction n with
  | zero => rfl
  | succ n ih =>
    rw [reads, read_end h, Option.bind_eq_bind, Option.bind_some]
    simp only [ih]
    rfl

theorem reads_lines {strings : List Bytes} (hs : ∀ s ∈ strings, s.length < 2 ^ 31) (n : ℕ)
    {d : LineDecoder} (h : Facing d (LineEncoder.lines strings)) :
    reads (strings.length + n) d =
      some (strings.map (fun s => ((s.length : Int), s)) ++ List.replicate n (-1, [])) := by
  induction strings generalizing d with
  | nil =>
    rw [List.length_nil, Nat.zero_add]
    exact reads_end h n
  | cons s strings ih =>
    rw [LineEncoder.lines, List.flatMap_cons, List.append_assoc, List.singleton_append] at h
    obtain ⟨d', hread, h'⟩ := read_line (hs s (by simp)) h
    have hrest := ih (fun t ht => hs t (by simp [ht])) h'
    rw [List.length_cons, Nat.add_right_comm, reads, hread, Option.bind_eq_bind, Option.bind_some]
    simp only [hrest]
    rfl

/-- Everything written is read back in order, and then nothing more. -/
theorem reads_written {strings : List Bytes} (hs : ∀ s ∈ strings, s.length ≤ 1789569706) (n : ℕ) :
    (∃ text, LineEncoder.written strings = some text ∧
      (text.length < 2 ^ 31 → reads (strings.length + n) (new text) =
        some (strings.map (fun s => ((s.length : Int), s)) ++ List.replicate n (-1, [])))) ∧
      (∀ s ∈ strings, ∃ text, strEscape s = some text ∧
        (text.length < 2 ^ 31 → strUnescape text = some s)) ∧
      ∀ s text, strEscape s = some text → charByte '\n' ∉ text := by
  refine ⟨⟨_, LineEncoder.written_eq hs, fun ht => ?_⟩, fun s hmem => ?_,
    fun _ _ => newline_not_mem_strEscape⟩
  · exact reads_lines (fun s hmem => (hs s hmem).trans_lt (by decide)) n (facing_new _ ht)
  · exact ⟨_, strEscape_eq s (hs s hmem), strUnescape_escaped s⟩

theorem reads_written_controls :
    ∃ text, LineEncoder.written [[10, 92], [], [0, 255]] = some text ∧
      (text.length < 2 ^ 31 → reads 4 (new text) =
        some [(2, [10, 92]), (0, []), (2, [0, 255]), (-1, [])]) :=
  (@reads_written [[10, 92], [], [0, 255]] (by decide) 1).1

theorem reads_written_long :
    LineEncoder.written [List.replicate 1789569707 97] = none ∧
      ((LineEncoder.written [List.replicate (2 ^ 31) 97]).bind fun text => reads 2 (new text)) =
        some [(0, []), (-1, [])] := by
  constructor
  · have hsize : int (List.replicate 1789569707 (97 : Byte)).length = 1789569707 := by
      rw [List.length_replicate]
      decide
    have hnone : strEscape (List.replicate 1789569707 (97 : Byte)) = none := by
      rw [strEscape, hsize]
      rfl
    rw [LineEncoder.written, List.foldlM_cons, LineEncoder.write, hnone]
    rfl
  · have hsize : int (List.replicate (2 ^ 31) (97 : Byte)).length = -2 ^ 31 := by
      rw [List.length_replicate]
      decide
    have hnone : strEscape (List.replicate (2 ^ 31) (97 : Byte)) = some [] := by
      rw [strEscape, hsize]
      rfl
    have htext : LineEncoder.written [List.replicate (2 ^ 31) (97 : Byte)] = some [charByte '\n'] := by
      rw [LineEncoder.written, List.foldlM_cons, LineEncoder.write, hnone]
      rfl
    rw [htext]
    decide

end LineDecoder
