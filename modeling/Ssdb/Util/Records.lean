import Mathlib.Data.List.Infix
import Ssdb.Util.Buffer

open Strings

namespace Buffer
variable {B : Buffer} {H : Heap}

theorem data_congr {b b' : Bytes} {offset size : Int} {n : ℕ} (total total' : Int)
    (hb : b'.take n = b.take n) (ho : 0 ≤ offset) (hs : 0 ≤ size) (hn : offset + size ≤ n) :
    (Buffer.mk b' offset size total').data = (Buffer.mk b offset size total).data := by
  have hcut (l : Bytes) : (l.drop offset.toNat).take size.toNat =
      ((l.take n).drop offset.toNat).take size.toNat := by
    rw [List.drop_take, List.take_take, min_eq_left (by omega)]
  rw [data, data, hcut b', hb, ← hcut b]

theorem resize {n : Int} {p : Bytes} (h : B.Valid) (hp : H.realloc B.buf n.toNat = some p)
    (hn : B.offset + B.size ≤ n) :
    ({ B with buf := p, total := n } : Buffer).Valid ∧
      ({ B with buf := p, total := n } : Buffer).data = B.data := by
  obtain ⟨halloc, hoff, hsize, hin⟩ := h
  have hlen := H.realloc_length hp
  refine ⟨⟨by simp only [hlen]; omega, hoff, hsize, hn⟩, ?_⟩
  exact data_congr B.total n (H.realloc_keeps hp) hoff hsize (by omega)

theorem write_length {b p : Bytes} {i : ℕ} (h : i + p.length ≤ b.length) :
    (write b i p).length = b.length := by
  simp only [write, List.length_append, List.length_take, List.length_drop]
  omega

theorem write_front (b p : Bytes) : (write b 0 p).take p.length = p := by
  rw [write, List.take_zero, List.nil_append, List.take_left]

theorem put_ok (h : B.Valid) {p : Bytes} (hp : p.length ≤ B.space) :
    ∃ B', B.put p = .ok B' ∧ B'.Valid ∧ B'.data = B.data ++ p ∧ B'.total = B.total := by
  obtain ⟨halloc, hoff, hsize, hin⟩ := h
  rw [space] at hp
  have hslot : 0 ≤ B.slot ∧ B.slot + p.length ≤ B.total := by
    rw [slot]
    omega
  refine ⟨_, if_pos hslot, ⟨?_, hoff, ?_, ?_⟩, ?_, rfl⟩
  · rw [write_length (by rw [slot]; omega)]
    exact halloc
  · simp only
    omega
  · simp only
    omega
  · have hs : (B.size + p.length).toNat = B.size.toNat + p.length := by omega
    have hat : B.slot.toNat = B.offset.toNat + B.size.toNat := by
      rw [slot]
      omega
    have hfront : (B.buf.take (B.offset.toNat + B.size.toNat)).length =
        B.offset.toNat + B.size.toNat := by
      rw [List.length_take]
      omega
    have hdata : (B.buf.take (B.offset.toNat + B.size.toNat)).drop B.offset.toNat = B.data := by
      rw [data, List.drop_take, Nat.add_sub_cancel_left]
    have hlen : B.data.length = B.size.toNat := by
      rw [← hdata, List.length_drop, hfront]
      omega
    simp only [data, hs, hat, write]
    rw [List.append_assoc, List.drop_append_of_le_length (by omega), hdata,
      List.take_append, hlen, Nat.add_sub_cancel_left, List.take_left,
      List.take_of_length_le (by omega)]
    rfl

theorem nice_ok (h : B.Valid) :
    ∃ B', B.nice = .ok B' ∧ B'.Valid ∧ B'.data = B.data ∧ B'.total = B.total := by
  have hdlen := data_length h
  obtain ⟨halloc, hoff, hsize, hin⟩ := h
  rw [nice]
  split_ifs with h1 h2 h3
  · -- a copy is made only from the rear half, and the rear half is the shorter
    omega
  · have hlong : 0 + B.data.length ≤ B.buf.length := by omega
    refine ⟨_, rfl, ⟨?_, le_rfl, hsize, by simp only; omega⟩, ?_, rfl⟩
    · simp only [write_length hlong]
      exact halloc
    · have hto : B.size.toNat = B.data.length := by omega
      change (((write B.buf 0 B.data).drop 0).take B.size.toNat) = B.data
      rw [List.drop_zero, hto, write_front]
  · refine ⟨_, rfl, ⟨halloc, le_rfl, hsize, by simp only; omega⟩, ?_, rfl⟩
    have hzero : B.size.toNat = 0 := by omega
    simp only [data, hzero, List.take_zero]
  · exact ⟨B, rfl, ⟨halloc, hoff, hsize, hin⟩, rfl, rfl⟩

theorem shrink_ok (h : B.Valid) (hH : ∀ b n, H.realloc b n ≠ none) (total : Int) :
    ∃ B', B.shrink H total = .ok B' ∧ B'.Valid ∧ B'.data = B.data := by
  rw [shrink]
  generalize (if total ≤ 0 then (8 * 1024 : Int) else total) = n
  by_cases hn : B.offset + B.size > n
  · exact ⟨B, if_pos hn, h, rfl⟩
  · cases hp : H.realloc B.buf n.toNat with
    | none => exact absurd hp (hH _ _)
    | some p =>
      obtain ⟨hvalid, hdata⟩ := resize h hp (not_lt.mp hn)
      exact ⟨_, by rw [if_neg hn]; rfl, hvalid, hdata⟩

theorem grow_ok (h : B.Valid) (hH : ∀ b n, H.realloc b n ≠ none) (hsmall : B.total < 2 ^ 30) :
    ∃ B', B.grow H = .ok (B'.total, B') ∧ B'.Valid ∧ B'.data = B.data ∧ B'.offset = B.offset ∧
      B'.size = B.size ∧ B.total < B'.total := by
  have hpos : 0 ≤ B.total := by have := h.offset; have := h.size; have := h.within; omega
  have hin := h.within
  rw [grow]
  generalize hn : (if B.total < 8 * 1024 then (8 * 1024 : Int)
    else if B.total < 512 * 1024 then 8 * B.total else 2 * B.total) = n
  have hbounds : B.total < n ∧ n ≤ 2147483647 := by
    rw [← hn]
    split_ifs <;> omega
  rw [checked_ok (by omega) hbounds.2, ok_bind]
  cases hp : H.realloc B.buf n.toNat with
  | none => exact absurd hp (hH _ _)
  | some p =>
    obtain ⟨hvalid, hdata⟩ := resize h hp (by omega)
    exact ⟨_, rfl, hvalid, hdata, rfl, rfl, hbounds.1⟩

theorem makeRoom_ok (hH : ∀ b n, H.realloc b n ≠ none) (size : Int) (fuel : ℕ) (h : B.Valid)
    (hsize : B.offset + B.size + size ≤ 2 ^ 30) (hfuel : size - B.space ≤ fuel) :
    ∃ B', makeRoom H size fuel B = .ok (true, B') ∧ B'.Valid ∧ B'.data = B.data ∧
      size ≤ B'.space := by
  induction fuel generalizing B with
  | zero => exact ⟨B, rfl, h, rfl, by omega⟩
  | succ fuel ih =>
    rw [makeRoom]
    by_cases hroom : size > B.space
    · rw [space] at hroom hfuel
      have hpos := h.offset
      have hin := h.within
      have hsz0 := h.size
      obtain ⟨B₁, hgrow, hvalid, hdata, hoff, hsz, hup⟩ := grow_ok h hH (by omega)
      obtain ⟨B', hrun, hvalid', hdata', hspace⟩ :=
        ih hvalid (by omega) (by rw [space]; push_cast at hfuel; omega)
      refine ⟨B', ?_, hvalid', hdata'.trans hdata, hspace⟩
      have hne : B₁.total ≠ -1 := by omega
      rw [if_pos (by rw [space]; exact hroom), hgrow, ok_bind]
      simp only [if_neg hne, hrun]
    · exact ⟨B, by rw [if_neg hroom]; rfl, h, rfl, not_lt.mp hroom⟩

theorem append_ok (h : B.Valid) (hH : ∀ b n, H.realloc b n ≠ none) {p : Bytes}
    (hsmall : B.offset + B.size + p.length ≤ 2 ^ 30) :
    ∃ B', B.append H p = .ok ((p.length : Int), B') ∧ B'.Valid ∧ B'.data = B.data ++ p := by
  obtain ⟨B₁, hroom, hvalid, hdata, hspace⟩ :=
    makeRoom_ok hH p.length (p.length - B.space).toNat h hsmall (by omega)
  obtain ⟨B', hput, hvalid', hdata', -⟩ := put_ok hvalid hspace
  refine ⟨B', ?_, hvalid', by rw [hdata', hdata]⟩
  simp only [append, hroom, ok_bind, Bool.not_true, Bool.false_eq_true, if_false, hput, pure_ok]

def frameEnd (cr : Bool) : Bytes := if cr then [charByte '\r', charByte '\n'] else [charByte '\n']

def frame (r : Bytes × Bool) : Bytes :=
  digits r.1.length ++ charByte '\n' :: (r.1 ++ frameEnd r.2)

def stream (rs : List (Bytes × Bool)) : Bytes := rs.flatMap frame

theorem frame_length (r : Bytes × Bool) : (frame r).length =
    (digits r.1.length).length + 1 + r.1.length + (frameEnd r.2).length := by
  simp only [frame, List.length_append, List.length_cons]
  omega

theorem frameEnd_cases (cr : Bool) : (cr = false ∧ frameEnd cr = [charByte '\n']) ∨
    (cr = true ∧ frameEnd cr = [charByte '\r', charByte '\n']) := by
  cases cr
  · exact .inl ⟨rfl, rfl⟩
  · exact .inr ⟨rfl, rfl⟩

theorem newline_not_mem_digits (n : ℕ) : charByte '\n' ∉ digits n := fun h =>
  absurd (digits_isdigit h) (by decide)

theorem digits_length {n : ℕ} (h : n < 2 ^ 28) : (digits n).length ≤ 9 := by
  rw [digits, List.length_map, Nat.length_toDigits_le_iff (by omega) (by omega)]
  omega

theorem atoi_digits {n : ℕ} (h : n < 2 ^ 28) : atoi (digits n) = n := by
  have hv : (Int64.ofNat n).toInt = n := Int64.toInt_ofNat_of_lt (by omega)
  have hstr : str (Int64.ofNat n) = digits n := by
    rw [str, hv, if_neg (by omega), Int.natAbs_natCast]
  rw [atoi, ← hstr, strtoll_str, Int64.toInt_toInt32, hv, Int.bmod_eq_of_le (by omega) (by omega)]

theorem idxOf?_append {header after : Bytes} {c : Byte} (h : c ∉ header) :
    (header ++ c :: after).idxOf? c = some header.length := by
  induction header with
  | nil => simp [List.idxOf?_cons]
  | cons x header ih =>
    simp only [List.mem_cons, not_or] at h
    rw [List.cons_append, List.idxOf?_cons, ih h.2]
    simp [Ne.symm h.1]

theorem readRecord_header (h : B.Valid) {n : ℕ} (hn : n < 2 ^ 28) {after : Bytes}
    (hdata : B.data = digits n ++ charByte '\n' :: after) :
    B.readRecord = B.takeRecord ((digits n).length + 1) n := by
  have hsize := data_length h
  have hlen : B.data.length = (digits n).length + 1 + after.length := by
    rw [hdata, List.length_append, List.length_cons]
    omega
  have hm : B.memchr (charByte '\n') = some (digits n).length := by
    rw [memchr, hdata, idxOf?_append (newline_not_mem_digits n)]
  have htake : B.data.take (digits n).length = digits n := by rw [hdata, List.take_left]
  have hfirst : isdigit (B.data.getD 0 0) = true := by
    cases hd : digits n with
    | nil => exact absurd hd (digits_ne_nil n)
    | cons c r =>
      rw [hdata, hd]
      exact digits_isdigit (n := n) (by simp [hd])
  have hnine := digits_length hn
  rw [readRecord, hm]
  simp only [peek_ok le_rfl (by omega : (0 : Int) < B.size), ok_bind, Int.toNat_zero, hfirst,
    Bool.not_true, Bool.false_eq_true, if_false, bytes_zero, htake, atoi_digits hn]
  rw [checked_ok (by omega) (by omega), ok_bind, if_neg (by omega), if_neg (by omega)]

theorem takeRecord_whole (h : B.Valid) (hsmall : B.size < 2 ^ 28) {header body rest : Bytes}
    {cr : Bool} (hdata : B.data = header ++ charByte '\n' :: (body ++ (frameEnd cr ++ rest))) :
    B.takeRecord (header.length + 1) body.length = .ok (1, some body,
      B.decr ((header.length + 1 + body.length + (frameEnd cr).length : ℕ) : Int)) := by
  have hsize := data_length h
  have hlen : B.data.length =
      header.length + 1 + body.length + (frameEnd cr).length + rest.length := by
    rw [hdata]
    simp only [List.length_append, List.length_cons]
    omega
  have hbytes := bytes_after hdata body.length
  rw [List.take_left] at hbytes
  have hget (k : ℕ) : B.data.getD (header.length + 1 + (body.length + k)) 0 =
      (frameEnd cr ++ rest).getD k 0 := by
    rw [getD_after hdata, List.getD_eq_getElem?_getD, List.getElem?_append_right (by omega),
      Nat.add_sub_cancel_left, List.getD_eq_getElem?_getD]
  have hat : ((header.length : Int) + 1 + body.length).toNat =
      header.length + 1 + (body.length + 0) := by omega
  have hat' : ((header.length : Int) + 1 + body.length + 1).toNat =
      header.length + 1 + (body.length + 1) := by omega
  rw [takeRecord]
  obtain ⟨rfl, hend⟩ | ⟨rfl, hend⟩ := frameEnd_cases cr
  · rw [hend] at hlen hget ⊢
    simp only [List.length_singleton] at hlen ⊢
    rw [checked_ok (by omega) (by omega), ok_bind, if_pos (by omega),
      peek_ok (by omega) (by omega), ok_bind, hat, hget]
    simp only [List.cons_append, List.getD_cons_zero, if_true, hbytes, pure_ok]
    push_cast
    rfl
  · have hr : charByte '\r' ≠ charByte '\n' := by decide
    rw [hend] at hlen hget ⊢
    simp only [List.length_cons, List.length_nil] at hlen ⊢
    rw [checked_ok (by omega) (by omega), ok_bind, if_pos (by omega),
      peek_ok (by omega) (by omega), ok_bind, hat, hget]
    simp only [List.cons_append, List.getD_cons_zero, if_neg hr, if_true]
    rw [checked_ok (by omega) (by omega), ok_bind, if_pos (by omega),
      peek_ok (by omega) (by omega), ok_bind, hat', hget]
    simp only [List.cons_append, List.getD_cons_succ, List.getD_cons_zero, if_true, hbytes, pure_ok]
    push_cast
    rfl

theorem takeRecord_part (h : B.Valid) (hsmall : B.size < 2 ^ 28) {header after body : Bytes}
    {cr : Bool} (hbody : body.length < 2 ^ 28) (hheader : header.length ≤ 9)
    (hdata : B.data = header ++ charByte '\n' :: after) (hpre : after <+: body ++ frameEnd cr)
    (hlt : after.length < body.length + (frameEnd cr).length) :
    B.takeRecord (header.length + 1) body.length = .ok (0, none, B) := by
  have hsize := data_length h
  have hlen : B.data.length = header.length + 1 + after.length := by
    rw [hdata, List.length_append, List.length_cons]
    omega
  rw [takeRecord, checked_ok (by omega) (by omega), ok_bind]
  by_cases hin : B.size ≥ (header.length : Int) + 1 + body.length + 1
  · -- only the line feed after a carriage return can be missing
    obtain ⟨rfl, hend⟩ | ⟨rfl, hend⟩ := frameEnd_cases cr
    · rw [hend, List.length_singleton] at hlt
      omega
    · rw [hend] at hlt hpre
      simp only [List.length_cons, List.length_nil] at hlt
      have hafter : after.length = body.length + 1 := by omega
      have heq : after = body ++ [charByte '\r'] := by
        rw [List.prefix_iff_eq_take.mp hpre, hafter, List.take_append,
          List.take_of_length_le (by omega), Nat.add_sub_cancel_left]
        rfl
      have hr : charByte '\r' ≠ charByte '\n' := by decide
      have hat : ((header.length : Int) + 1 + body.length).toNat =
          header.length + 1 + body.length := by omega
      have hget : after.getD body.length 0 = charByte '\r' := by
        rw [heq, List.getD_eq_getElem?_getD, List.getElem?_append_right le_rfl, Nat.sub_self]
        rfl
      rw [if_pos hin, peek_ok (by omega) (by omega), ok_bind, hat, getD_after hdata, hget,
        if_neg hr, if_pos rfl, checked_ok (by omega) (by omega), ok_bind, if_neg (by omega), pure_ok]
  · rw [if_neg hin, pure_ok]

theorem readRecord_whole (h : B.Valid) (hsmall : B.size < 2 ^ 28) {r : Bytes × Bool} {rest : Bytes}
    (hr : r.1.length < 2 ^ 28) (hdata : B.data = frame r ++ rest) :
    ∃ B', B.readRecord = .ok (1, some r.1, B') ∧ B'.Valid ∧ B'.data = rest := by
  have hsize := data_length h
  have hcut : B.data = digits r.1.length ++ charByte '\n' :: (r.1 ++ (frameEnd r.2 ++ rest)) := by
    rw [hdata, frame]
    simp only [List.append_assoc, List.cons_append]
  have hlen : B.data.length = (frame r).length + rest.length := by rw [hdata, List.length_append]
  have hall : (digits r.1.length).length + 1 + r.1.length + (frameEnd r.2).length ≤ B.size := by
    have hf := frame_length r
    omega
  refine ⟨_, ?_, decr_valid h (Int.natCast_nonneg _) hall, ?_⟩
  · rw [readRecord_header h hr hcut, takeRecord_whole h hsmall hcut]
  · rw [decr_data h hall, ← frame_length, hdata, List.drop_left]

theorem readRecord_part (h : B.Valid) (hsmall : B.size < 2 ^ 28) {r : Bytes × Bool}
    (hr : r.1.length < 2 ^ 28) (hpre : B.data <+: frame r) (hlt : B.data.length < (frame r).length) :
    B.readRecord = .ok (0, none, B) := by
  have heq := List.prefix_iff_eq_take.mp hpre
  by_cases hline : B.data.length ≤ (digits r.1.length).length
  · -- the header line is not complete
    have hnone : B.memchr (charByte '\n') = none := by
      rw [memchr, List.idxOf?_eq_none_iff, heq, frame, List.take_append_of_le_length hline]
      exact fun hmem => newline_not_mem_digits _ (List.mem_of_mem_take hmem)
    rw [readRecord, hnone]
    rfl
  · obtain ⟨m, hm⟩ : ∃ m, B.data.length = (digits r.1.length).length + (m + 1) :=
      ⟨B.data.length - (digits r.1.length).length - 1, by omega⟩
    have hcut : B.data = digits r.1.length ++
        charByte '\n' :: (r.1 ++ frameEnd r.2).take m := by
      rw [heq, hm, frame, List.take_append, List.take_of_length_le (by omega),
        Nat.add_sub_cancel_left, List.take_succ_cons]
    have hf := frame_length r
    have hshort : ((r.1 ++ frameEnd r.2).take m).length < r.1.length + (frameEnd r.2).length := by
      rw [List.length_take]
      omega
    rw [readRecord_header h hr hcut]
    exact takeRecord_part h hsmall hr (digits_length hr) hcut (List.take_prefix _ _) hshort

theorem readRecord_empty (h : B.data = []) : B.readRecord = .ok (0, none, B) := by
  have hnone : B.memchr (charByte '\n') = none := by
    rw [memchr, h]
    rfl
  rw [readRecord, hnone]
  rfl

inductive Op where
  | appendRecord (s : Bytes)
  | append (p : Bytes)
  | readRecord
  | nice
  | grow
  | shrink (total : Int)

def step (H : Heap) (op : Op) (B : Buffer) : Except Fault (List (Int × Option Bytes) × Buffer) :=
  match op with
  | .appendRecord s => do return ([], (← B.appendRecord H s).2)
  | .append p => do return ([], (← B.append H p).2)
  | .readRecord => do
    let (ret, s, B) ← B.readRecord
    return ([(ret, s)], B)
  | .nice => do return ([], ← B.nice)
  | .grow => do return ([], (← B.grow H).2)
  | .shrink total => do return ([], ← B.shrink H total)

def run (H : Heap) : List Op → Buffer → Except Fault (List (Int × Option Bytes) × Buffer)
  | [], B => return ([], B)
  | op :: ops, B => do
    let (reads, B) ← step H op B
    let (more, B) ← run H ops B
    return (reads ++ more, B)

def Op.written : Op → Bytes
  | .appendRecord s => frame (s, false)
  | .append p => p
  | .readRecord => []
  | .nice => []
  | .grow => []
  | .shrink _ => []

def Op.Small (op : Op) : Prop := op.written.length < 2 ^ 28

def got (reads : List (Int × Option Bytes)) : List Bytes := reads.filterMap Prod.snd

theorem appendRecord_ok (h : B.Valid) (hH : ∀ b n, H.realloc b n ≠ none) {s : Bytes}
    (hs : s.length < 2 ^ 28) (hsmall : B.offset + B.size ≤ 2 ^ 28) :
    ∃ ret B', B.appendRecord H s = .ok (ret, B') ∧ B'.Valid ∧ B'.data = B.data ++ frame (s, false) := by
  obtain ⟨B₁, hroom, hvalid, hdata, hspace⟩ :=
    makeRoom_ok hH (16 + s.length + 1) (16 + (s.length : Int) + 1 - B.space).toNat h
      (by omega) (by omega)
  have hdig := digits_length hs
  have hlen : ((digits s.length ++ [charByte '\n'] ++ s ++ [charByte '\n']).length : Int) ≤ B₁.space := by
    simp only [List.length_append, List.length_singleton]
    omega
  obtain ⟨B', hput, hvalid', hdata', -⟩ := put_ok hvalid hlen
  refine ⟨(digits s.length ++ [charByte '\n']).length + s.length + 1, B', ?_, hvalid', ?_⟩
  · rw [appendRecord, checked_ok (by omega) (by omega), ok_bind, hroom, ok_bind]
    simp only [Bool.not_true, Bool.false_eq_true, if_false, hput, ok_bind, pure_ok]
  · rw [hdata', hdata, frame, frameEnd]
    simp

structure Follows (B : Buffer) (records : List (Bytes × Bool)) (written : Bytes) (k : ℕ) : Prop where
  valid : B.Valid
  taken : k ≤ records.length
  text : written = stream (records.take k) ++ B.data

theorem stream_split (records : List (Bytes × Bool)) (k : ℕ) :
    stream records = stream (records.take k) ++ stream (records.drop k) := by
  rw [stream, stream, stream, ← List.flatMap_append, List.take_append_drop]

structure NextRead (B : Buffer) (records : List (Bytes × Bool)) (written : Bytes) (k : ℕ) : Prop where
  whole : ∀ r, records[k]? = some r → (stream (records.take (k + 1))).length ≤ written.length →
    ∃ B', B.readRecord = .ok (1, some r.1, B')
  part : (∀ r, records[k]? = some r → written.length < (stream (records.take (k + 1))).length) →
    B.readRecord = .ok (0, none, B)

variable {records : List (Bytes × Bool)} {written : Bytes} {k : ℕ}

theorem Follows.read (hf : Follows B records written k) (htotal : B.total < 2 ^ 28)
    (hrecords : ∀ r ∈ records, r.1.length < 2 ^ 28) (hstream : written <+: stream records) :
    (∃ r B', records[k]? = some r ∧ (stream (records.take (k + 1))).length ≤ written.length ∧
        B.readRecord = .ok (1, some r.1, B') ∧ Follows B' records written (k + 1)) ∨
      ((∀ r, records[k]? = some r → written.length < (stream (records.take (k + 1))).length) ∧
        B.readRecord = .ok (0, none, B)) := by
  have hsmall : B.size < 2 ^ 28 := by
    have := hf.valid.offset
    have := hf.valid.within
    omega
  have hdata : B.data <+: stream (records.drop k) := by
    rw [hf.text, stream_split records k] at hstream
    exact (List.prefix_append_right_inj _).mp hstream
  cases hd : records.drop k with
  | nil =>
    rw [hd] at hdata
    have hnone : records[k]? = none := by rw [← List.head?_drop, hd]; rfl
    refine .inr ⟨fun r hr => ?_, readRecord_empty (List.prefix_nil.mp hdata)⟩
    rw [hnone] at hr
    exact absurd hr (by simp)
  | cons r rs =>
    have hk : records[k]? = some r := by rw [← List.head?_drop, hd]; rfl
    have hmem : r ∈ records := List.mem_of_getElem? hk
    have hnext : stream (records.take (k + 1)) = stream (records.take k) ++ frame r := by
      rw [List.take_add_one, hk, Option.toList_some, stream, List.flatMap_append]
      rw [List.flatMap_singleton]
      rfl
    have hcons : stream (r :: rs) = frame r ++ stream rs := List.flatMap_cons
    have hlen := congrArg List.length hf.text
    rw [List.length_append] at hlen
    rw [hd, hcons] at hdata
    by_cases hwhole : (frame r).length ≤ B.data.length
    · obtain ⟨rest, hrest⟩ := List.prefix_of_prefix_length_le (List.prefix_append _ _) hdata hwhole
      obtain ⟨B', hread, hvalid, hdata'⟩ :=
        readRecord_whole hf.valid hsmall (hrecords r hmem) hrest.symm
      refine .inl ⟨r, B', hk, ?_, hread, hvalid, ?_, ?_⟩
      · rw [hnext, List.length_append]
        omega
      · exact (List.getElem?_eq_some_iff.mp hk).1
      · rw [hnext, List.append_assoc, hdata', hrest]
        exact hf.text
    · refine .inr ⟨fun r' hr' => ?_, ?_⟩
      · rw [hnext, List.length_append]
        omega
      · have hpart : B.data <+: frame r :=
          List.prefix_of_prefix_length_le hdata (List.prefix_append _ _) (by omega)
        exact readRecord_part hf.valid hsmall (hrecords r hmem) hpart (by omega)

theorem Follows.next (hf : Follows B records written k) (htotal : B.total < 2 ^ 28)
    (hrecords : ∀ r ∈ records, r.1.length < 2 ^ 28) (hstream : written <+: stream records) :
    NextRead B records written k := by
  obtain ⟨r, B', hk, hlen, hread, -⟩ | ⟨hlt, hread⟩ := hf.read htotal hrecords hstream
  · refine ⟨fun r' hr' _ => ?_, fun hpart => absurd (hpart r hk) (by omega)⟩
    obtain rfl : r = r' := Option.some.inj (hk.symm.trans hr')
    exact ⟨B', hread⟩
  · exact ⟨fun r hr hle => absurd (hlt r hr) (by omega), fun _ => hread⟩

theorem Follows.same {B' : Buffer} (hf : Follows B records written k) (hvalid : B'.Valid)
    (hdata : B'.data = B.data) : Follows B' records (written ++ []) k :=
  ⟨hvalid, hf.taken, by rw [List.append_nil, hdata, hf.text]⟩

theorem Follows.more {B' : Buffer} {p : Bytes} (hf : Follows B records written k)
    (hvalid : B'.Valid) (hdata : B'.data = B.data ++ p) :
    Follows B' records (written ++ p) k :=
  ⟨hvalid, hf.taken, by rw [hdata, hf.text, List.append_assoc]⟩

theorem Follows.step (hf : Follows B records written k) (hH : ∀ b n, H.realloc b n ≠ none)
    (htotal : B.total < 2 ^ 28) (hrecords : ∀ r ∈ records, r.1.length < 2 ^ 28) {op : Op}
    (hop : op.Small) (hstream : written ++ op.written <+: stream records) :
    ∃ reads B', step H op B = .ok (reads, B') ∧
      Follows B' records (written ++ op.written) (k + (got reads).length) ∧
      (reads = [] ∨ reads = [(0, none)] ∨
        ∃ r, records[k]? = some r ∧ reads = [(1, some r.1)]) := by
  have hin : B.offset + B.size ≤ 2 ^ 28 := by
    have := hf.valid.within
    omega
  cases op with
  | appendRecord s =>
    have hs : s.length < 2 ^ 28 := by
      rw [Op.Small, Op.written, frame_length] at hop
      simp only at hop
      omega
    obtain ⟨ret, B', hB', hvalid, hdata⟩ := appendRecord_ok hf.valid hH hs hin
    refine ⟨[], B', ?_, hf.more hvalid hdata, .inl rfl⟩
    rw [Buffer.step, hB', ok_bind, pure_ok]
  | append p =>
    rw [Op.Small, Op.written] at hop
    obtain ⟨B', hB', hvalid, hdata⟩ := append_ok hf.valid hH (p := p) (by omega)
    refine ⟨[], B', ?_, hf.more hvalid hdata, .inl rfl⟩
    rw [Buffer.step, hB', ok_bind, pure_ok]
  | readRecord =>
    rw [Op.written, List.append_nil] at hstream ⊢
    obtain ⟨r, B', hk, -, hread, hf'⟩ | ⟨-, hread⟩ := hf.read htotal hrecords hstream
    · refine ⟨[(1, some r.1)], B', ?_, hf', .inr (.inr ⟨r, hk, rfl⟩)⟩
      rw [Buffer.step, hread, ok_bind]
      rfl
    · refine ⟨[(0, none)], B, ?_, hf, .inr (.inl rfl)⟩
      rw [Buffer.step, hread, ok_bind]
      rfl
  | nice =>
    obtain ⟨B', hB', hvalid, hdata, -⟩ := nice_ok hf.valid
    refine ⟨[], B', ?_, hf.same hvalid hdata, .inl rfl⟩
    rw [Buffer.step, hB', ok_bind, pure_ok]
  | grow =>
    obtain ⟨B', hB', hvalid, hdata, -⟩ := grow_ok hf.valid hH (by omega)
    refine ⟨[], B', ?_, hf.same hvalid hdata, .inl rfl⟩
    rw [Buffer.step, hB', ok_bind, pure_ok]
  | shrink total =>
    obtain ⟨B', hB', hvalid, hdata⟩ := shrink_ok hf.valid hH total
    refine ⟨[], B', ?_, hf.same hvalid hdata, .inl rfl⟩
    rw [Buffer.step, hB', ok_bind, pure_ok]

theorem Follows.run (hf : Follows B records written k) (hH : ∀ b n, H.realloc b n ≠ none)
    (hrecords : ∀ r ∈ records, r.1.length < 2 ^ 28) {ops : List Op} (hops : ∀ op ∈ ops, op.Small)
    (hstream : written ++ ops.flatMap Op.written <+: stream records)
    (htotal : ∀ before reads B', before <+: ops → run H before B = .ok (reads, B') →
      B'.total < 2 ^ 28) :
    ∃ reads B', run H ops B = .ok (reads, B') ∧
      Follows B' records (written ++ ops.flatMap Op.written) (k + (got reads).length) ∧
      got reads = ((records.drop k).take (got reads).length).map Prod.fst ∧
      ∀ p ∈ reads, p = (0, none) ∨ ∃ s, p = (1, some s) := by
  induction ops generalizing B written k with
  | nil =>
    refine ⟨[], B, rfl, ?_, rfl, by simp⟩
    rw [List.flatMap_nil, List.append_nil]
    exact hf
  | cons op ops ih =>
    rw [List.flatMap_cons, ← List.append_assoc] at hstream
    have hfirst := htotal [] [] B (List.nil_prefix) rfl
    obtain ⟨reads, B', hstep, hf', hreads⟩ := hf.step hH hfirst hrecords (hops op (by simp))
      ((List.prefix_append _ _).trans hstream)
    obtain ⟨more, B'', hrun, hf'', hgot, hmore⟩ := ih hf' (fun o ho => hops o (by simp [ho]))
      hstream fun before rs B₁ hbefore hB₁ => by
        refine htotal (op :: before) (reads ++ rs) B₁ (List.cons_prefix_cons.mpr ⟨rfl, hbefore⟩) ?_
        rw [Buffer.run, hstep, ok_bind]
        simp only [hB₁, ok_bind, pure_ok]
    have hsplit : got (reads ++ more) = got reads ++ got more := List.filterMap_append
    refine ⟨reads ++ more, B'', ?_, ?_, ?_, ?_⟩
    · rw [Buffer.run, hstep, ok_bind]
      simp only [hrun, ok_bind, pure_ok]
    · rw [List.flatMap_cons, ← List.append_assoc, hsplit, List.length_append, ← Nat.add_assoc]
      exact hf''
    · rw [hsplit]
      obtain rfl | rfl | ⟨r, hk, rfl⟩ := hreads
      · exact hgot
      · exact hgot
      · have hd : records.drop k = r :: records.drop (k + 1) := by
          obtain ⟨hlt, hr⟩ := List.getElem?_eq_some_iff.mp hk
          rw [← hr, List.getElem_cons_drop]
        have hone : got [((1 : Int), some r.1)] = [r.1] := rfl
        rw [hone] at hgot ⊢
        rw [hd, List.singleton_append, List.length_cons, List.take_succ_cons, List.map_cons]
        exact congrArg (r.1 :: ·) hgot
    · intro p hp
      rcases List.mem_append.mp hp with hp | hp
      · obtain rfl | rfl | ⟨r, -, rfl⟩ := hreads
        · exact absurd hp (by simp)
        · exact .inl (List.mem_singleton.mp hp)
        · exact .inr ⟨r.1, List.mem_singleton.mp hp⟩
      · exact hmore p hp

theorem new_valid (H : Heap) (total : ℕ) : (new H total).Valid :=
  ⟨by rw [new, H.malloc_length], le_rfl, le_rfl, Int.natCast_nonneg total⟩

theorem new_data (H : Heap) (total : ℕ) : (new H total).data = [] := by
  rw [data, new]
  exact List.take_zero

/-- The records come out as they went in. -/
theorem run_fifo (hH : ∀ b n, H.realloc b n ≠ none) (total : ℕ) (ops : List Op)
    (records : List (Bytes × Bool)) (hrecords : ∀ r ∈ records, r.1.length < 2 ^ 28)
    (hops : ∀ op ∈ ops, op.Small) (hstream : ops.flatMap Op.written <+: stream records)
    (htotal : ∀ before reads B, before <+: ops → run H before (new H total) = .ok (reads, B) →
      B.total < 2 ^ 28) :
    ∃ reads B, run H ops (new H total) = .ok (reads, B) ∧
      (0 ≤ B.offset ∧ 0 ≤ B.size ∧ B.offset + B.size ≤ B.total) ∧
      got reads = (records.take (got reads).length).map Prod.fst ∧
      (∀ p ∈ reads, p = (0, none) ∨ ∃ s, p = (1, some s)) ∧
      NextRead B records (ops.flatMap Op.written) (got reads).length := by
  have hf : Follows (new H total) records [] 0 :=
    ⟨new_valid H total, Nat.zero_le _, by rw [new_data]; rfl⟩
  obtain ⟨reads, B, hrun, hf', hgot, hreads⟩ := hf.run hH hrecords hops hstream htotal
  rw [Nat.zero_add, List.nil_append] at hf'
  refine ⟨reads, B, hrun, ⟨hf'.valid.offset, hf'.valid.size, hf'.valid.within⟩, hgot, hreads, ?_⟩
  exact hf'.next (htotal ops reads B List.prefix_rfl hrun) hrecords hstream

def zeros : Heap where
  malloc n := List.replicate n 0
  realloc b n := some (b.take n ++ List.replicate (n - b.length) 0)
  malloc_length n := List.length_replicate
  realloc_length h := by
    obtain rfl := Option.some.inj h
    simp only [List.length_append, List.length_take, List.length_replicate]
    omega
  realloc_keeps h := by
    obtain rfl := Option.some.inj h
    rw [List.take_append_of_le_length (by rw [List.length_take, Nat.min_comm]), List.take_take]
    congr 1
    omega

theorem run_fifo_chunks : ∃ reads B,
    run zeros [.appendRecord [97, 98], .append [49], .append [10, 99, 13], .readRecord, .nice,
      .readRecord, .append [10], .readRecord] (new zeros 64) = .ok (reads, B) ∧
      got reads = (([([97, 98], false), ([99], true)] : List (Bytes × Bool)).take
        (got reads).length).map Prod.fst := by
  have hsizes : ∀ before ∈ List.inits [Op.appendRecord [97, 98], .append [49],
      .append [10, 99, 13], .readRecord, .nice, .readRecord, .append [10], .readRecord],
      (match run zeros before (new zeros 64) with
        | .ok r => decide (r.2.total < 2 ^ 28)
        | .error _ => true) = true := by decide +kernel
  obtain ⟨reads, B, hrun, -, hgot, -⟩ := run_fifo (H := zeros) (fun _ _ => by simp [zeros]) 64
    [.appendRecord [97, 98], .append [49], .append [10, 99, 13], .readRecord, .nice, .readRecord,
      .append [10], .readRecord] [([97, 98], false), ([99], true)] (by decide)
      (by unfold Op.Small; decide +kernel)
    (by decide +kernel) fun before reads B hbefore hrun => by
      have h := hsizes before ((List.mem_inits _ _).mpr hbefore)
      rw [hrun] at h
      simpa using h
  exact ⟨reads, B, hrun, hgot⟩

end Buffer
