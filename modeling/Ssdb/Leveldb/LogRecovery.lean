import Ssdb.Leveldb.LogFormat

namespace Log

theorem kHeaderSize_eq : kHeaderSize = 7 := rfl

theorem kBlockSize_eq : kBlockSize = 32768 := rfl

@[simp] theorem header_length (t : ℕ) (p : Bytes) : (header t p).length = kHeaderSize := by
  simp [header, Coding.encodeFixed32, kHeaderSize]

theorem decodeFixed32_append (v : UInt32) (p : Bytes) :
    Coding.decodeFixed32 (Coding.encodeFixed32 v ++ p) = v := by
  have hlen : (Coding.encodeFixed32 v).length = 4 := by simp [Coding.encodeFixed32]
  have hv : v.toNat < 256 ^ 4 := v.toNat_lt
  rw [Coding.decodeFixed32, ← hlen, List.take_left, Coding.encodeFixed32, List.reverse_reverse,
    FixedWidth.value_bigEndian 256 hv, UInt32.ofNat_toNat]

theorem header_fields (t : ℕ) {p : Bytes} (ht : t < 128) (hp : p.length < 65536) (q : Bytes) :
    ((header t p ++ q).getD 4 0).val + ((header t p ++ q).getD 5 0).val * 256 = p.length ∧
      Reader.typeOf ((header t p ++ q).getD 6 0) = t ∧
      (header t p ++ q).drop 6 = Coding.byte t :: q ∧
      Crc32c.unmask (Coding.decodeFixed32 (header t p ++ q)) =
        Crc32c.value 0 (Coding.byte t :: p) := by
  have hcrc := Crc32c.extend_extend 0 0 0 0 [Coding.byte t] p
  obtain ⟨c0, c1, c2, c3, hc⟩ : ∃ c0 c1 c2 c3, Coding.encodeFixed32
      (Crc32c.mask (Crc32c.extend 0 (Crc32c.value 0 [Coding.byte t]) p)) = [c0, c1, c2, c3] :=
    ⟨_, _, _, _, rfl⟩
  have hval (n : ℕ) : (Coding.byte n).val = n % 256 := rfl
  refine ⟨?_, ?_, ?_, ?_⟩
  · rw [header, hc]
    simp only [List.cons_append, List.nil_append, List.getD_cons_succ, List.getD_cons_zero, hval]
    omega
  · rw [header, hc]
    simp only [List.cons_append, List.nil_append, List.getD_cons_succ, List.getD_cons_zero]
    rw [Reader.typeOf, hval, Nat.mod_eq_of_lt (by omega), if_pos ht]
  · rw [header, hc]
    rfl
  · rw [header, List.append_assoc, decodeFixed32_append, Crc32c.unmask_mask, Crc32c.value, hcrc]
    rfl

structure At (r : Reader) (o : ℕ) (rest : Bytes) : Prop where
  split : r.buffer ++ r.file = rest
  whole : r.eof = false → r.buffer.length = kBlockSize - o
  short : r.eof = true → r.file = [] ∧ r.buffer.length < kBlockSize - o
  start : r.initialOffset = 0
  steady : r.resyncing = false

theorem At.new (file : Bytes) (checksum : Bool) : At (Reader.new file checksum 0) kBlockSize file :=
  ⟨rfl, fun _ => (Nat.sub_self kBlockSize).symm, fun h => Bool.noConfusion h, rfl, rfl⟩

variable {r : Reader} {o : ℕ} {rest : Bytes}

theorem At.fill (h : At r o rest) (he : r.eof = false) :
    At r.fill 0 (rest.drop (kBlockSize - o)) ∧ r.fill.reports = r.reports ∧
      r.fill.lastRecordOffset = r.lastRecordOffset := by
  have hfile : rest.drop (kBlockSize - o) = r.file := by
    rw [← h.split, ← h.whole he, List.drop_left]
  refine ⟨⟨?_, fun hw => ?_, fun hs => ?_, h.start, h.steady⟩, rfl, rfl⟩
  · rw [hfile]
    exact List.take_append_drop kBlockSize r.file
  · have hlen : ¬ (r.file.take kBlockSize).length < kBlockSize := by simpa [Reader.fill] using hw
    rw [List.length_take] at hlen
    change (r.file.take kBlockSize).length = _
    rw [List.length_take]
    omega
  · have hlen : (r.file.take kBlockSize).length < kBlockSize := by simpa [Reader.fill] using hs
    refine ⟨?_, hlen⟩
    rw [List.length_take] at hlen
    exact List.drop_eq_nil_of_le (by omega)

theorem At.append_length (h : At r o rest) : r.buffer.length + r.file.length = rest.length := by
  rw [← h.split, List.length_append]

theorem At.parse {t : ℕ} {p tail : Bytes} (h : At r o (header t p ++ p ++ tail)) (ht0 : 0 < t)
    (ht : t < 128) (hp : o + kHeaderSize + p.length ≤ kBlockSize) :
    ∃ r', r.parse = ⟨t, p, r'⟩ ∧ At r' (o + kHeaderSize + p.length) tail ∧
      r'.reports = r.reports := by
  have hlen : kHeaderSize + p.length ≤ r.buffer.length := by
    cases he : r.eof with
    | false =>
      have := h.whole he
      omega
    | true =>
      obtain ⟨hfile, -⟩ := h.short he
      have hsplit := h.append_length
      rw [hfile] at hsplit
      simp only [List.length_append, header_length, List.length_nil] at hsplit
      omega
  obtain ⟨q, hq⟩ : ∃ q, r.buffer = header t p ++ (p ++ q) := by
    have hpre : header t p ++ p <+: r.buffer := by
      have h1 : r.buffer <+: header t p ++ p ++ tail := ⟨r.file, h.split⟩
      have h2 : header t p ++ p <+: header t p ++ p ++ tail := ⟨tail, rfl⟩
      exact List.prefix_of_prefix_length_le h2 h1 (by simpa using hlen)
    obtain ⟨q, hq⟩ := hpre
    exact ⟨q, by rw [← hq, List.append_assoc]⟩
  have hp16 : p.length < 65536 := by
    rw [kBlockSize_eq, kHeaderSize_eq] at hp
    omega
  obtain ⟨hlength, htype, hdrop, hcrc⟩ := header_fields t ht hp16 (p ++ q)
  have htake : (Coding.byte t :: (p ++ q)).take (1 + p.length) = Coding.byte t :: p := by
    rw [Nat.add_comm, List.take_succ_cons, List.take_left]
  have hrest : (header t p ++ (p ++ q)).drop (kHeaderSize + p.length) = q := by
    rw [← header_length t p, ← List.drop_drop, List.drop_left, List.drop_left]
  have hfragment : ((header t p ++ (p ++ q)).drop kHeaderSize).take p.length = p := by
    rw [← header_length t p, List.drop_left, List.take_left]
  have htail : q ++ r.file = tail := by
    have hs := h.split
    rw [hq, List.append_assoc, List.append_assoc, List.append_assoc, List.append_cancel_left_eq,
      List.append_cancel_left_eq] at hs
    exact hs
  refine ⟨{ r with buffer := q }, ?_, ⟨htail, fun he => ?_, fun he => ?_, h.start, h.steady⟩, rfl⟩
  · rw [Reader.parse, hq, hlength, htype, hdrop, hcrc, htake, hrest, hfragment, h.start]
    rw [if_neg, if_neg, if_neg]
    · simp
    · simp
    · rintro ⟨h0, -⟩
      exact ht0.ne' h0
    · rw [hq] at hlen
      exact not_lt.mpr hlen
  · have := h.whole he
    rw [hq] at this
    simp only [List.length_append, header_length] at this
    change q.length = _
    omega
  · obtain ⟨hfile, hshort⟩ := h.short he
    refine ⟨hfile, ?_⟩
    rw [hq] at hshort
    simp only [List.length_append, header_length] at hshort
    change q.length < _
    omega

theorem At.parse_cut {t : ℕ} {p : Bytes} {k : ℕ} (h : At r o ((header t p ++ p).take k))
    (he : r.eof = true) (ht : t < 128) (hp : p.length < 65536) (hk : kHeaderSize ≤ k)
    (hcut : k < kHeaderSize + p.length) :
    ∃ r', r.parse = ⟨kEof, [], r'⟩ ∧ r'.reports = r.reports ∧ r'.resyncing = false := by
  have hsplit := h.split
  rw [(h.short he).1, List.append_nil, List.take_append, header_length,
    List.take_of_length_le (by simpa using hk)] at hsplit
  obtain ⟨hlength, -, -, -⟩ := header_fields t ht hp (p.take (k - kHeaderSize))
  refine ⟨{ r with buffer := [] }, ?_, rfl, h.steady⟩
  rw [Reader.parse, hsplit, hlength, if_pos, he, if_pos rfl]
  rw [List.length_append, header_length, List.length_take]
  omega

def padding (o : ℕ) : Bytes :=
  if kBlockSize - o < kHeaderSize then List.replicate (kBlockSize - o) 0 else []

def placed (o : ℕ) : ℕ := if kBlockSize - o < kHeaderSize then 0 else o

theorem At.load (h : At r o rest) :
    let r' := if r.buffer.length < kHeaderSize ∧ r.eof = false then r.fill else r
    (r.eof = false → At r' (placed o) (rest.drop (padding o).length)) ∧
      (r.eof = true → r' = r) ∧ r'.reports = r.reports := by
  intro r'
  refine ⟨fun he => ?_, fun he => ?_, ?_⟩
  · have hbuf := h.whole he
    by_cases hb : kBlockSize - o < kHeaderSize
    · have hr' : r' = r.fill := if_pos ⟨hbuf.trans_lt hb, he⟩
      rw [hr', placed, padding, if_pos hb, if_pos hb, List.length_replicate]
      exact (h.fill he).1
    · have hr' : r' = r := if_neg fun hc => hb (hbuf ▸ hc.1)
      rw [hr', placed, padding, if_neg hb, if_neg hb]
      exact h
  · exact if_neg fun hc => Bool.noConfusion (he.symm.trans hc.2)
  · by_cases hc : r.buffer.length < kHeaderSize ∧ r.eof = false
    · have hr' : r' = r.fill := if_pos hc
      rw [hr', (h.fill hc.2).2.1]
    · have hr' : r' = r := if_neg hc
      rw [hr']

theorem At.physical {t : ℕ} {p tail : Bytes}
    (h : At r o (padding o ++ (header t p ++ p ++ tail))) (ht0 : 0 < t) (ht : t < 128)
    (hp : placed o + kHeaderSize + p.length ≤ kBlockSize) :
    ∃ r', r.readPhysicalRecord = ⟨t, p, r'⟩ ∧ At r' (placed o + kHeaderSize + p.length) tail ∧
      r'.reports = r.reports := by
  obtain ⟨hload, heof, hreports⟩ := h.load
  rw [List.drop_left] at hload
  rw [Reader.readPhysicalRecord]
  generalize (if r.buffer.length < kHeaderSize ∧ r.eof = false then r.fill else r) = r1 at *
  have hat : At r1 (placed o) (header t p ++ p ++ tail) := by
    cases he : r.eof with
    | false => exact hload he
    | true =>
      obtain ⟨hfile, hshort⟩ := h.short he
      have hlen := h.append_length
      rw [hfile] at hlen
      by_cases hb : kBlockSize - o < kHeaderSize
      · rw [padding, if_pos hb] at hlen
        simp only [List.length_append, List.length_replicate, List.length_nil] at hlen
        omega
      · rw [padding, if_neg hb, List.nil_append] at h
        rw [heof he, placed, if_neg hb]
        exact h
  obtain ⟨r', hparse, hat', hrep⟩ := hat.parse ht0 ht hp
  refine ⟨r', ?_, hat', hrep.trans hreports⟩
  rw [if_neg, hparse]
  have hlen := hat.append_length
  cases he : r1.eof with
  | false =>
    have := hat.whole he
    omega
  | true =>
    rw [(hat.short he).1] at hlen
    simp only [List.length_append, header_length, List.length_nil] at hlen
    omega

theorem At.header_cut {t : ℕ} {p : Bytes} {k : ℕ} (h : At r o ((header t p ++ p).take k))
    (ht : t < 128) (hp : o + kHeaderSize + p.length ≤ kBlockSize) (hk : k < kHeaderSize + p.length) :
    ∃ r', (if r.buffer.length < kHeaderSize then ⟨kEof, [], { r with buffer := [] }⟩ else r.parse) =
      (⟨kEof, [], r'⟩ : Reader.Physical) ∧ r'.reports = r.reports ∧ r'.resyncing = false := by
  have hlen := h.append_length
  rw [List.length_take, List.length_append, header_length, Nat.min_eq_left hk.le] at hlen
  have he : r.eof = true := by
    cases he : r.eof with
    | true => rfl
    | false =>
      have := h.whole he
      omega
  rw [(h.short he).1, List.length_nil, Nat.add_zero] at hlen
  by_cases hsmall : k < kHeaderSize
  · exact ⟨_, if_pos (hlen ▸ hsmall), rfl, h.steady⟩
  · have hp16 : p.length < 65536 := by
      rw [kBlockSize_eq, kHeaderSize_eq] at hp
      omega
    obtain ⟨r', hparse, hrep⟩ := h.parse_cut he ht hp16 (not_lt.mp hsmall) hk
    refine ⟨r', ?_, hrep⟩
    rw [if_neg (hlen ▸ hsmall), hparse]

theorem At.physical_cut {t : ℕ} {p : Bytes} {k : ℕ}
    (h : At r o ((padding o ++ (header t p ++ p)).take k)) (ht : t < 128)
    (hp : placed o + kHeaderSize + p.length ≤ kBlockSize)
    (hk : k < (padding o ++ (header t p ++ p)).length) :
    ∃ r', r.readPhysicalRecord = ⟨kEof, [], r'⟩ ∧ r'.reports = r.reports ∧
      r'.resyncing = false := by
  have hlen := h.append_length
  rw [List.length_take, Nat.min_eq_left hk.le] at hlen
  simp only [List.length_append, header_length] at hk
  obtain ⟨hload, heof, hreports⟩ := h.load
  rw [Reader.readPhysicalRecord]
  generalize (if r.buffer.length < kHeaderSize ∧ r.eof = false then r.fill else r) = r1 at *
  cases he : r.eof with
  | false =>
    have hbuf := h.whole he
    have hpad : (padding o).length ≤ k := by
      rw [padding]
      split_ifs
      · rw [List.length_replicate]
        omega
      · exact Nat.zero_le k
    have hat := hload he
    rw [List.take_append, List.take_of_length_le hpad, List.drop_left] at hat
    obtain ⟨r', hread, hrep⟩ := hat.header_cut ht hp (by omega)
    exact ⟨r', hread, hrep.1.trans hreports, hrep.2⟩
  | true =>
    obtain ⟨hfile, hshort⟩ := h.short he
    rw [heof he]
    by_cases hb : kBlockSize - o < kHeaderSize
    · exact ⟨_, if_pos (hshort.trans hb), rfl, h.steady⟩
    · rw [padding, if_neg hb, List.nil_append] at h
      rw [placed, if_neg hb] at hp
      rw [padding, if_neg hb, List.length_nil, Nat.zero_add] at hk
      exact h.header_cut ht hp hk

theorem placed_le (ho : o ≤ kBlockSize) : placed o + kHeaderSize ≤ kBlockSize := by
  rw [placed]
  have h7 := kHeaderSize_eq
  have hb := kBlockSize_eq
  split_ifs <;> omega

theorem placed_end : placed kBlockSize = 0 := if_pos (by rw [Nat.sub_self, kHeaderSize_eq]; decide)

theorem Writer.switchBlock_eq (w : Writer) :
    w.switchBlock = ⟨w.dest ++ padding w.blockOffset, placed w.blockOffset⟩ := by
  rw [Writer.switchBlock, padding, placed]
  split_ifs
  · rfl
  · rw [List.append_nil]

def piece (o : ℕ) (left : Bytes) : Bytes := left.take (kBlockSize - placed o - kHeaderSize)

def chunk (o t : ℕ) (p : Bytes) : Bytes := padding o ++ (header t p ++ p)

def lastPiece (o : ℕ) (left : Bytes) : Bool := decide (left.length = (piece o left).length)

theorem piece_length (o : ℕ) (left : Bytes) : (piece o left).length =
    if left.length < kBlockSize - placed o - kHeaderSize then left.length
    else kBlockSize - placed o - kHeaderSize := by
  rw [piece, List.length_take]
  split_ifs <;> omega

theorem piece_length_le (o : ℕ) (left : Bytes) : (piece o left).length ≤ left.length := by
  rw [piece, List.length_take]
  exact Nat.min_le_right _ _

theorem take_piece (o : ℕ) (left : Bytes) : left.take (piece o left).length = piece o left := by
  rw [piece, List.length_take, List.take_eq_take_iff]
  omega

theorem piece_append_drop (o : ℕ) (left : Bytes) :
    piece o left ++ left.drop (piece o left).length = left := by
  have h := List.take_append_drop (piece o left).length left
  rwa [take_piece] at h

theorem drop_piece (o : ℕ) (left : Bytes) :
    left.drop (piece o left).length = [] ↔ left.length = (piece o left).length := by
  have hle := piece_length_le o left
  rw [List.drop_eq_nil_iff]
  omega

theorem Writer.addRecordLoop_succ (n : ℕ) (first : Bool) (left : Bytes) (w : Writer) :
    addRecordLoop (n + 1) first left w =
      let p := piece w.blockOffset left
      let next : Writer := ⟨w.dest ++ chunk w.blockOffset
          (recordType first (lastPiece w.blockOffset left)) p,
        placed w.blockOffset + kHeaderSize + p.length⟩
      if left.length = p.length then next else addRecordLoop n false (left.drop p.length) next := by
  rw [Writer.addRecordLoop, Writer.switchBlock_eq]
  simp only [← piece_length, take_piece, Writer.emitPhysicalRecord, chunk, lastPiece,
    List.append_assoc]
  by_cases h : left.length = (piece w.blockOffset left).length
  · rw [if_pos ((drop_piece _ _).mpr h), if_pos h]
  · rw [if_neg (h ∘ (drop_piece _ _).mp), if_neg h]

theorem Writer.addRecordLoop_dest (n : ℕ) (first : Bool) (left : Bytes) (d : Bytes) (o : ℕ) :
    addRecordLoop n first left ⟨d, o⟩ =
      ⟨d ++ (addRecordLoop n first left ⟨[], o⟩).dest,
        (addRecordLoop n first left ⟨[], o⟩).blockOffset⟩ := by
  induction n generalizing first left d o with
  | zero => simp [addRecordLoop]
  | succ n ih =>
    rw [addRecordLoop_succ, addRecordLoop_succ]
    dsimp only
    split_ifs
    · simp
    · rw [ih, ih false _ ([] ++ _)]
      simp [List.append_assoc]

theorem Reader.steady_eq {r : Reader} (h : r.resyncing = false) : { r with resyncing := false } = r := by
  cases r
  simp_all

theorem recordType_lt (first last : Bool) : 0 < recordType first last ∧ recordType first last < 128 := by
  cases first <;> cases last <;> decide

theorem Reader.readRecordLoop_fragment {r r' : Reader} {first last : Bool} {p scratch : Bytes}
    (hread : r.readPhysicalRecord = ⟨recordType first last, p, r'⟩) (hsteady : r'.resyncing = false)
    (hscratch : first = true → scratch = []) (m prospective : ℕ) :
    ∃ off, readRecordLoop (m + 1) (!first) prospective scratch r =
      if last then (some (scratch ++ p), { r' with lastRecordOffset := off })
      else readRecordLoop m true off (scratch ++ p) r' := by
  rw [readRecordLoop, hread]
  cases first with
  | true =>
    rw [hscratch rfl]
    cases last with
    | true =>
      exact ⟨r'.endOfBufferOffset - r'.buffer.length - kHeaderSize - p.length, by
        simp [hsteady, steady_eq hsteady, recordType, kFullType, kMiddleType, kLastType]⟩
    | false =>
      exact ⟨r'.endOfBufferOffset - r'.buffer.length - kHeaderSize - p.length, by
        simp [hsteady, steady_eq hsteady, recordType, kFullType, kFirstType, kMiddleType, kLastType]⟩
  | false =>
    cases last with
    | true =>
      exact ⟨prospective, by
        simp [hsteady, recordType, kFullType, kFirstType, kMiddleType, kLastType]⟩
    | false =>
      exact ⟨prospective, by
        simp [hsteady, steady_eq hsteady, recordType, kFullType, kFirstType, kMiddleType, kLastType]⟩

theorem Reader.readRecordLoop_eof {r r' : Reader} (hread : r.readPhysicalRecord = ⟨kEof, [], r'⟩)
    (hsteady : r'.resyncing = false) (m : ℕ) (fragmented : Bool) (prospective : ℕ) (scratch : Bytes) :
    readRecordLoop (m + 1) fragmented prospective scratch r = (none, r') := by
  rw [readRecordLoop, hread]
  simp [hsteady, steady_eq hsteady, kEof, kFullType, kFirstType, kMiddleType, kLastType]

def Enough (n o : ℕ) (left : Bytes) : Prop :=
  left.length + (if placed o + kHeaderSize < kBlockSize then 0 else 1) < n

theorem piece_fits (ho : o ≤ kBlockSize) (left : Bytes) :
    placed o + kHeaderSize + (piece o left).length ≤ kBlockSize := by
  have hle := placed_le ho
  rw [piece, List.length_take]
  omega

theorem piece_fills (ho : o ≤ kBlockSize) {left : Bytes} (h : left.length ≠ (piece o left).length) :
    placed o + kHeaderSize + (piece o left).length = kBlockSize := by
  have hle := placed_le ho
  rw [piece, List.length_take] at h ⊢
  omega

theorem Enough.next {n : ℕ} {left : Bytes} (h : Enough (n + 1) o left) (ho : o ≤ kBlockSize)
    (hmore : left.length ≠ (piece o left).length) :
    Enough n kBlockSize (left.drop (piece o left).length) := by
  have hb := kBlockSize_eq
  have h7 := kHeaderSize_eq
  have hfill := piece_fills ho hmore
  have hle := piece_length_le o left
  rw [Enough] at h ⊢
  rw [placed_end, List.length_drop, if_pos (by omega)]
  split_ifs at h <;> omega

variable {n m : ℕ} {first : Bool} {left tail : Bytes}

theorem At.record (hfuel : Enough n o left) (ho : o ≤ kBlockSize)
    (h : At r o ((Writer.addRecordLoop n first left ⟨[], o⟩).dest ++ tail))
    (hm : (Writer.addRecordLoop n first left ⟨[], o⟩).dest.length < m)
    (scratch : Bytes) (hscratch : first = true → scratch = []) (prospective : ℕ) :
    ∃ r', Reader.readRecordLoop m (!first) prospective scratch r = (some (scratch ++ left), r') ∧
      At r' (Writer.addRecordLoop n first left ⟨[], o⟩).blockOffset tail ∧
      (Writer.addRecordLoop n first left ⟨[], o⟩).blockOffset ≤ kBlockSize ∧
      r'.reports = r.reports := by
  induction n generalizing r o first left scratch m prospective with
  | zero => exact absurd hfuel (Nat.not_lt_zero _)
  | succ n ih =>
    obtain ⟨hpos, hsmall⟩ := recordType_lt first (lastPiece o left)
    have hfits := piece_fits ho left
    rw [Writer.addRecordLoop_succ] at h hm ⊢
    dsimp only at h hm ⊢
    cases m with
    | zero => exact absurd hm (Nat.not_lt_zero _)
    | succ m =>
      by_cases hlast : left.length = (piece o left).length
      · rw [if_pos hlast] at h hm ⊢
        rw [List.nil_append, chunk, List.append_assoc] at h
        obtain ⟨r', hread, hat, hrep⟩ := h.physical hpos hsmall hfits
        obtain ⟨off, hloop⟩ := Reader.readRecordLoop_fragment hread hat.steady hscratch m prospective
        have hwhole : piece o left = left := by
          rw [← take_piece, ← hlast, List.take_length]
        have hl : lastPiece o left = true := decide_eq_true hlast
        rw [hl, if_pos rfl] at hloop
        refine ⟨{ r' with lastRecordOffset := off }, ?_, ?_, hfits, hrep⟩
        · rw [hloop, hwhole]
        · exact ⟨hat.split, hat.whole, hat.short, hat.start, hat.steady⟩
      · rw [if_neg hlast] at h hm ⊢
        rw [piece_fills ho hlast, Writer.addRecordLoop_dest, List.nil_append] at h hm ⊢
        rw [List.append_assoc, chunk, List.append_assoc] at h
        obtain ⟨r', hread, hat, hrep⟩ := h.physical hpos hsmall hfits
        obtain ⟨off, hloop⟩ := Reader.readRecordLoop_fragment hread hat.steady hscratch m prospective
        have hl : lastPiece o left = false := decide_eq_false hlast
        rw [hl, if_neg (by simp)] at hloop
        rw [piece_fills ho hlast] at hat
        have hm' : (Writer.addRecordLoop n false (left.drop (piece o left).length)
            ⟨[], kBlockSize⟩).dest.length < m := by
          simp only [List.length_append, chunk, header_length, kHeaderSize_eq] at hm
          omega
        obtain ⟨r'', hrest, hat', hle, hrep'⟩ := ih (hfuel.next ho hlast) le_rfl hat hm'
          (scratch ++ piece o left) (fun hf => Bool.noConfusion hf) off
        refine ⟨r'', ?_, hat', hle, hrep'.trans hrep⟩
        rw [hloop]
        rw [List.append_assoc, piece_append_drop] at hrest
        exact hrest

theorem chunk_length (o t : ℕ) (p : Bytes) :
    (chunk o t p).length = (padding o).length + (kHeaderSize + p.length) := by
  rw [chunk, List.length_append, List.length_append, header_length]

theorem At.record_cut {k : ℕ} (hfuel : Enough n o left) (ho : o ≤ kBlockSize)
    (h : At r o ((Writer.addRecordLoop n first left ⟨[], o⟩).dest.take k))
    (hk : k < (Writer.addRecordLoop n first left ⟨[], o⟩).dest.length) (hm : k < m)
    (scratch : Bytes) (hscratch : first = true → scratch = []) (prospective : ℕ) :
    ∃ r', Reader.readRecordLoop m (!first) prospective scratch r = (none, r') ∧
      r'.reports = r.reports := by
  induction n generalizing r o first left scratch m k prospective with
  | zero => exact absurd hfuel (Nat.not_lt_zero _)
  | succ n ih =>
    obtain ⟨hpos, hsmall⟩ := recordType_lt first (lastPiece o left)
    have hfits := piece_fits ho left
    obtain ⟨m, rfl⟩ : ∃ m', m = m' + 1 := ⟨m - 1, by omega⟩
    have hwithin {t : ℕ} {p : Bytes} (hat : At r o ((chunk o t p).take k)) (ht : t < 128)
        (hp : placed o + kHeaderSize + p.length ≤ kBlockSize) (hcut : k < (chunk o t p).length) :
        ∃ r', Reader.readRecordLoop (m + 1) (!first) prospective scratch r = (none, r') ∧
          r'.reports = r.reports := by
      obtain ⟨r', hread, hrep, hsteady⟩ := hat.physical_cut ht hp hcut
      exact ⟨r', Reader.readRecordLoop_eof hread hsteady m _ _ _, hrep⟩
    rw [Writer.addRecordLoop_succ] at h hk
    dsimp only at h hk
    by_cases hlast : left.length = (piece o left).length
    · rw [if_pos hlast, List.nil_append] at h hk
      exact hwithin h hsmall hfits hk
    · rw [if_neg hlast, piece_fills ho hlast, Writer.addRecordLoop_dest, List.nil_append] at h hk
      dsimp only at h hk
      rcases lt_or_ge k (chunk o (recordType first (lastPiece o left)) (piece o left)).length with
        hlt | hge
      · rw [List.take_append_of_le_length hlt.le] at h
        exact hwithin h hsmall hfits hlt
      · rw [List.take_append, List.take_of_length_le hge, chunk, List.append_assoc] at h
        obtain ⟨r', hread, hat, hrep⟩ := h.physical hpos hsmall hfits
        obtain ⟨off, hloop⟩ := Reader.readRecordLoop_fragment hread hat.steady hscratch m prospective
        have hl : lastPiece o left = false := decide_eq_false hlast
        rw [hl, if_neg (by simp)] at hloop
        rw [piece_fills ho hlast] at hat
        rw [List.length_append] at hk
        have hlen := chunk_length o (recordType first (lastPiece o left)) (piece o left)
        rw [kHeaderSize_eq] at hlen
        have hlen' : (padding o ++ (header (recordType first (lastPiece o left)) (piece o left) ++
            piece o left)).length = (chunk o (recordType first (lastPiece o left))
              (piece o left)).length := rfl
        rw [hlen'] at hat
        have hm' : k - (chunk o (recordType first (lastPiece o left)) (piece o left)).length < m := by
          omega
        obtain ⟨r'', hrest, hrep'⟩ := ih (hfuel.next ho hlast) le_rfl hat (by omega) hm'
          (scratch ++ piece o left) (fun hf => Bool.noConfusion hf) off
        exact ⟨r'', hloop.trans hrest, hrep'.trans hrep⟩

theorem enough (o : ℕ) (slice : Bytes) : Enough (slice.length + 2) o slice := by
  rw [Enough]
  split_ifs <;> omega

theorem Writer.addRecord_dest (slice d : Bytes) (o : ℕ) : addRecord ⟨d, o⟩ slice =
    ⟨d ++ (addRecord ⟨[], o⟩ slice).dest, (addRecord ⟨[], o⟩ slice).blockOffset⟩ :=
  addRecordLoop_dest _ _ _ _ _

theorem Writer.addRecords_dest (slices : List Bytes) (d : Bytes) (o : ℕ) :
    addRecords ⟨d, o⟩ slices =
      ⟨d ++ (addRecords ⟨[], o⟩ slices).dest, (addRecords ⟨[], o⟩ slices).blockOffset⟩ := by
  induction slices generalizing d o with
  | nil => simp [addRecords]
  | cons slice slices ih =>
    have hone := addRecord_dest slice d o
    simp only [addRecords, List.foldl_cons] at ih ⊢
    rw [hone, ih, ih (addRecord ⟨[], o⟩ slice).dest, List.append_assoc]

theorem Writer.addRecords_cons (slice : Bytes) (slices : List Bytes) (o : ℕ) :
    (addRecords ⟨[], o⟩ (slice :: slices)).dest = (addRecord ⟨[], o⟩ slice).dest ++
      (addRecords ⟨[], (addRecord ⟨[], o⟩ slice).blockOffset⟩ slices).dest := by
  change (addRecords (addRecord ⟨[], o⟩ slice) slices).dest = _
  rw [addRecords_dest]

theorem At.readRecord {slice : Bytes} (ho : o ≤ kBlockSize)
    (h : At r o ((Writer.addRecord ⟨[], o⟩ slice).dest ++ tail)) :
    ∃ r', r.readRecord = (some slice, r') ∧
      At r' (Writer.addRecord ⟨[], o⟩ slice).blockOffset tail ∧
      (Writer.addRecord ⟨[], o⟩ slice).blockOffset ≤ kBlockSize ∧ r'.reports = r.reports := by
  have hlen := h.append_length
  rw [List.length_append, Writer.addRecord] at hlen
  obtain ⟨r', hread, hrest⟩ := At.record (enough o slice) ho h
    (m := r.buffer.length + r.file.length + 1) (by omega) [] (fun _ => rfl) 0
  refine ⟨r', ?_, hrest⟩
  rw [Reader.readRecord, h.start, if_neg (Nat.not_lt_zero _)]
  exact hread

theorem At.readRecord_cut {slice : Bytes} {k : ℕ} (ho : o ≤ kBlockSize)
    (h : At r o ((Writer.addRecord ⟨[], o⟩ slice).dest.take k))
    (hk : k < (Writer.addRecord ⟨[], o⟩ slice).dest.length) :
    ∃ r', r.readRecord = (none, r') ∧ r'.reports = r.reports := by
  have hlen := h.append_length
  rw [List.length_take, Nat.min_eq_left hk.le] at hlen
  obtain ⟨r', hread, hrep⟩ := At.record_cut (enough o slice) ho h hk
    (m := r.buffer.length + r.file.length + 1) (by omega) [] (fun _ => rfl) 0
  refine ⟨r', ?_, hrep⟩
  rw [Reader.readRecord, h.start, if_neg (Nat.not_lt_zero _)]
  exact hread

theorem Writer.addRecord_pos (slice : Bytes) (o : ℕ) : 0 < (addRecord ⟨[], o⟩ slice).dest.length := by
  rw [addRecord, addRecordLoop_succ]
  dsimp only
  have hchunk (t : ℕ) (p : Bytes) : 0 < (chunk o t p).length := by
    rw [chunk_length, kHeaderSize_eq]
    omega
  split_ifs
  · exact hchunk _ _
  · rw [addRecordLoop_dest, List.nil_append, List.length_append]
    exact Nat.add_pos_left (hchunk _ _) _

theorem At.records {slices : List Bytes} (ho : o ≤ kBlockSize)
    (h : At r o ((Writer.addRecords ⟨[], o⟩ slices).dest.take m))
    (hn : ((Writer.addRecords ⟨[], o⟩ slices).dest.take m).length < n) :
    ∃ k ≤ slices.length, ∃ r', Reader.recordsLoop n r = (slices.take k, r') ∧
      r'.reports = r.reports ∧
      (Writer.addRecords ⟨[], o⟩ (slices.take k)).dest.length ≤ m ∧
      ∀ l, k < l → l ≤ slices.length →
        m < (Writer.addRecords ⟨[], o⟩ (slices.take l)).dest.length := by
  induction slices generalizing r o m n with
  | nil =>
    obtain ⟨n, rfl⟩ : ∃ n', n = n' + 1 := ⟨n - 1, by omega⟩
    have hend : At r o ((Writer.addRecord ⟨[], o⟩ []).dest.take 0) := by
      simpa [Writer.addRecords] using h
    obtain ⟨r', hread, hrep⟩ := hend.readRecord_cut ho (Writer.addRecord_pos [] o)
    refine ⟨0, le_rfl, r', ?_, hrep, Nat.zero_le m, fun l hl hle => ?_⟩
    · rw [Reader.recordsLoop, hread]
      rfl
    · exact absurd (hl.trans_le hle) (Nat.not_lt_zero 0)
  | cons slice slices ih =>
    obtain ⟨n, rfl⟩ : ∃ n', n = n' + 1 := ⟨n - 1, by omega⟩
    rw [Writer.addRecords_cons] at h hn
    rcases lt_or_ge m (Writer.addRecord ⟨[], o⟩ slice).dest.length with hlt | hge
    · rw [List.take_append_of_le_length hlt.le] at h
      obtain ⟨r', hread, hrep⟩ := h.readRecord_cut ho hlt
      refine ⟨0, Nat.zero_le _, r', ?_, hrep, Nat.zero_le m, fun l hl _ => ?_⟩
      · rw [Reader.recordsLoop, hread]
        rfl
      · obtain ⟨l, rfl⟩ : ∃ l', l = l' + 1 := ⟨l - 1, by omega⟩
        rw [List.take_succ_cons, Writer.addRecords_cons, List.length_append]
        omega
    · rw [List.take_append, List.take_of_length_le hge] at h hn
      obtain ⟨r', hread, hat, hle, hrep⟩ := h.readRecord ho
      have hpos := Writer.addRecord_pos slice o
      rw [List.length_append] at hn
      have hn' : ((Writer.addRecords ⟨[], (Writer.addRecord ⟨[], o⟩ slice).blockOffset⟩
          slices).dest.take (m - (Writer.addRecord ⟨[], o⟩ slice).dest.length)).length < n := by omega
      obtain ⟨k, hk, r'', hloop, hrep', hfits, hmore⟩ := ih hle hat hn'
      refine ⟨k + 1, Nat.succ_le_succ hk, r'', ?_, hrep'.trans hrep, ?_, fun l hl hlen => ?_⟩
      · rw [Reader.recordsLoop, hread]
        dsimp only
        rw [hloop, List.take_succ_cons]
      · rw [List.take_succ_cons, Writer.addRecords_cons, List.length_append]
        omega
      · obtain ⟨l, rfl⟩ : ∃ l', l = l' + 1 := ⟨l - 1, by omega⟩
        have hnext := hmore l (by omega) (by simpa using hlen)
        rw [List.take_succ_cons, Writer.addRecords_cons, List.length_append]
        omega

theorem padding_zero : padding 0 = padding kBlockSize ∧ placed 0 = placed kBlockSize := by
  have hfirst : ¬ kBlockSize - 0 < kHeaderSize := by
    rw [kBlockSize_eq, kHeaderSize_eq]
    decide
  refine ⟨?_, (if_neg hfirst).trans placed_end.symm⟩
  rw [padding, padding, if_neg hfirst, Nat.sub_self, if_pos (by rw [kHeaderSize_eq]; decide)]
  rfl

theorem Writer.addRecord_boundary (d slice : Bytes) :
    addRecord ⟨d, 0⟩ slice = addRecord ⟨d, kBlockSize⟩ slice := by
  have hpiece : piece 0 slice = piece kBlockSize slice := by
    rw [piece, piece, padding_zero.2]
  have hlast : lastPiece 0 slice = lastPiece kBlockSize slice := by
    rw [lastPiece, lastPiece, hpiece]
  have hchunk (t : ℕ) (p : Bytes) : chunk 0 t p = chunk kBlockSize t p := by
    rw [chunk, chunk, padding_zero.1]
  rw [addRecord, addRecord, addRecordLoop_succ, addRecordLoop_succ]
  simp only [hpiece, hlast, hchunk, padding_zero.2]

theorem Writer.addRecords_boundary (d : Bytes) (slices : List Bytes) :
    (addRecords ⟨d, 0⟩ slices).dest = (addRecords ⟨d, kBlockSize⟩ slices).dest := by
  cases slices with
  | nil => rfl
  | cons slice slices =>
    rw [addRecords, addRecords, List.foldl_cons, List.foldl_cons, addRecord_boundary]

def Writer.Counts (w : Writer) : Prop :=
  w.blockOffset ≤ kBlockSize ∧ w.dest.length % kBlockSize = w.blockOffset % kBlockSize

theorem padding_counts {d : ℕ} (ho : o ≤ kBlockSize) (hd : d % kBlockSize = o % kBlockSize) :
    (d + (padding o).length) % kBlockSize = placed o % kBlockSize := by
  rw [padding, placed]
  split_ifs
  · rw [List.length_replicate, Nat.add_mod, hd, ← Nat.add_mod, Nat.add_sub_cancel' ho, Nat.mod_self,
      Nat.zero_mod]
  · exact hd

theorem Writer.Counts.addRecordLoop {w : Writer} (h : w.Counts) (n : ℕ) (first : Bool) (left : Bytes) :
    (Writer.addRecordLoop n first left w).Counts := by
  induction n generalizing w first left with
  | zero => exact h
  | succ n ih =>
    have hnext (t : ℕ) : Writer.Counts ⟨w.dest ++ chunk w.blockOffset t (piece w.blockOffset left),
        placed w.blockOffset + kHeaderSize + (piece w.blockOffset left).length⟩ := by
      refine ⟨piece_fits h.1 left, ?_⟩
      have hpad := padding_counts h.1 h.2
      rw [List.length_append, chunk_length, ← Nat.add_assoc, Nat.add_mod, hpad, ← Nat.add_mod,
        Nat.add_assoc]
    rw [Writer.addRecordLoop_succ]
    dsimp only
    split_ifs
    · exact hnext _
    · exact ih (hnext _) _ _

theorem Writer.Counts.addRecords {w : Writer} (h : w.Counts) (slices : List Bytes) :
    (w.addRecords slices).Counts := by
  induction slices generalizing w with
  | nil => exact h
  | cons slice slices ih => exact ih (h.addRecordLoop _ _ _)

theorem Writer.Counts.reopened {w : Writer} (h : w.Counts) (slices : List Bytes) :
    ((Writer.new w.dest).addRecords slices).dest = (w.addRecords slices).dest := by
  obtain ⟨d, o⟩ := w
  rw [Writer.new, h.2]
  rcases lt_or_eq_of_le h.1 with hlt | heq
  · rw [Nat.mod_eq_of_lt hlt]
  · change o = kBlockSize at heq
    rw [heq, Nat.mod_self]
    exact addRecords_boundary d slices

def sessions (slices : List (List Bytes)) : Bytes :=
  slices.foldl (fun dest slices => ((Writer.new dest).addRecords slices).dest) []

theorem sessions_joined (slices : List (List Bytes)) :
    sessions slices = ((Writer.new []).addRecords slices.flatten).dest := by
  have hnew : Writer.Counts ⟨[], 0⟩ := ⟨Nat.zero_le _, rfl⟩
  have hfold (w : Writer) (h : w.Counts) :
      slices.foldl (fun dest slices => ((Writer.new dest).addRecords slices).dest) w.dest =
        (w.addRecords slices.flatten).dest := by
    induction slices generalizing w with
    | nil => rfl
    | cons first slices ih =>
      rw [List.foldl_cons, h.reopened, ih _ (h.addRecords first), List.flatten_cons,
        Writer.addRecords, Writer.addRecords, Writer.addRecords, List.foldl_append]
  exact hfold ⟨[], 0⟩ hnew

/-- Whatever byte a crash cuts a log file at, and however many writers were opened on it, the reader
brings back exactly the records written whole before that byte, in order, and reports nothing. -/
theorem truncated_log_recovers (slices : List (List Bytes)) (m : ℕ) (checksum : Bool) :
    ∃ k ≤ slices.flatten.length,
      (Reader.new ((sessions slices).take m) checksum 0).records.1 = slices.flatten.take k ∧
      (Reader.new ((sessions slices).take m) checksum 0).records.2.reports = [] ∧
      (sessions [slices.flatten.take k]).length ≤ m ∧
      ∀ l, k < l → l ≤ slices.flatten.length → m < (sessions [slices.flatten.take l]).length := by
  have hone (l : ℕ) : sessions [slices.flatten.take l] =
      (Writer.addRecords ⟨[], kBlockSize⟩ (slices.flatten.take l)).dest := by
    rw [sessions_joined, List.flatten_singleton]
    exact Writer.addRecords_boundary [] _
  have hall : sessions slices = (Writer.addRecords ⟨[], kBlockSize⟩ slices.flatten).dest := by
    rw [sessions_joined]
    exact Writer.addRecords_boundary [] _
  have hnew := At.new ((Writer.addRecords ⟨[], kBlockSize⟩ slices.flatten).dest.take m) checksum
  have hfuel : ((Writer.addRecords ⟨[], kBlockSize⟩ slices.flatten).dest.take m).length <
      0 + ((Writer.addRecords ⟨[], kBlockSize⟩ slices.flatten).dest.take m).length + 1 := by omega
  obtain ⟨k, hk, r', hloop, hrep, hfits, hmore⟩ := hnew.records le_rfl hfuel
  have hread : (Reader.new ((sessions slices).take m) checksum 0).records =
      (slices.flatten.take k, r') := by
    rw [hall]
    exact hloop
  refine ⟨k, hk, by rw [hread], by rw [hread]; exact hrep, ?_, fun l hl hle => ?_⟩
  · rw [hone]
    exact hfits
  · rw [hone]
    exact hmore l hl hle

end Log
