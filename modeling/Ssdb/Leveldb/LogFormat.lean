import Ssdb.Leveldb.Crc32c

namespace Log

def kZeroType : ℕ := 0

def kFullType : ℕ := 1

def kFirstType : ℕ := 2

def kMiddleType : ℕ := 3

def kLastType : ℕ := 4

def kBlockSize : ℕ := 32768

def kHeaderSize : ℕ := 7

structure Writer where
  dest : Bytes
  blockOffset : ℕ
deriving DecidableEq, Repr

def Writer.new (dest : Bytes) : Writer := ⟨dest, dest.length % kBlockSize⟩

def header (t : ℕ) (p : Bytes) : Bytes :=
  let crc := Crc32c.extend 0 (Crc32c.value 0 [Coding.byte t]) p
  Coding.encodeFixed32 (Crc32c.mask crc) ++
    [Coding.byte p.length, Coding.byte (p.length / 256), Coding.byte t]

def Writer.emitPhysicalRecord (w : Writer) (t : ℕ) (p : Bytes) : Writer :=
  ⟨w.dest ++ header t p ++ p, w.blockOffset + kHeaderSize + p.length⟩

def Writer.switchBlock (w : Writer) : Writer :=
  let leftover := kBlockSize - w.blockOffset
  if leftover < kHeaderSize then ⟨w.dest ++ List.replicate leftover 0, 0⟩ else w

def recordType (first last : Bool) : ℕ :=
  if first && last then kFullType
  else if first then kFirstType
  else if last then kLastType
  else kMiddleType

def Writer.addRecordLoop : ℕ → Bool → Bytes → Writer → Writer
  | 0, _, _, w => w
  | n + 1, first, left, w =>
    let w := w.switchBlock
    let avail := kBlockSize - w.blockOffset - kHeaderSize
    let fragmentLength := if left.length < avail then left.length else avail
    let last := decide (left.length = fragmentLength)
    let w := w.emitPhysicalRecord (recordType first last) (left.take fragmentLength)
    let left := left.drop fragmentLength
    if left = [] then w else addRecordLoop n false left w

def Writer.addRecord (w : Writer) (slice : Bytes) : Writer :=
  w.addRecordLoop (slice.length + 2) true slice

def Writer.addRecords (w : Writer) (slices : List Bytes) : Writer := slices.foldl Writer.addRecord w

def kEof : ℕ := 5

def kBadRecord : ℕ := 6

structure Reader where
  file : Bytes
  checksum : Bool
  buffer : Bytes
  eof : Bool
  lastRecordOffset : ℕ
  endOfBufferOffset : ℕ
  initialOffset : ℕ
  resyncing : Bool
  /-- The sizes and reasons given to the reporter, latest first. -/
  reports : List (ℕ × String)
deriving DecidableEq, Repr

namespace Reader

def new (file : Bytes) (checksum : Bool) (initialOffset : ℕ) : Reader :=
  ⟨file, checksum, [], false, 0, 0, initialOffset, decide (0 < initialOffset), []⟩

def reportCorruption (r : Reader) (bytes : ℕ) (reason : String) : Reader :=
  if r.initialOffset ≤ r.endOfBufferOffset - r.buffer.length - bytes then
    { r with reports := (bytes, reason) :: r.reports }
  else r

def skipToInitialBlock (r : Reader) : Reader :=
  let offsetInBlock := r.initialOffset % kBlockSize
  let blockStart := r.initialOffset - offsetInBlock
  let blockStart := if kBlockSize - 6 < offsetInBlock then blockStart + kBlockSize else blockStart
  { r with endOfBufferOffset := blockStart, file := r.file.drop blockStart }

structure Physical where
  type : ℕ
  fragment : Bytes
  reader : Reader

def fill (r : Reader) : Reader :=
  let buffer := r.file.take kBlockSize
  { r with
    buffer := buffer
    file := r.file.drop kBlockSize
    endOfBufferOffset := r.endOfBufferOffset + buffer.length
    eof := decide (buffer.length < kBlockSize) }

/-- `const unsigned int type = header[6]`, where `header` holds signed characters. -/
def typeOf (b : Byte) : ℕ := if b.val < 128 then b.val else 2 ^ 32 - 256 + b.val

def parse (r : Reader) : Physical :=
  let length := (r.buffer.getD 4 0).val + (r.buffer.getD 5 0).val * 256
  let type := typeOf (r.buffer.getD 6 0)
  let dropped := { r with buffer := [] }
  if r.buffer.length < kHeaderSize + length then
    if r.eof then ⟨kEof, [], dropped⟩
    else ⟨kBadRecord, [], dropped.reportCorruption r.buffer.length "bad record length"⟩
  else if type = kZeroType ∧ length = 0 then ⟨kBadRecord, [], dropped⟩
  else if r.checksum ∧ Crc32c.value 0 ((r.buffer.drop 6).take (1 + length)) ≠
      Crc32c.unmask (Coding.decodeFixed32 r.buffer) then
    ⟨kBadRecord, [], dropped.reportCorruption r.buffer.length "checksum mismatch"⟩
  else
    let fragment := (r.buffer.drop kHeaderSize).take length
    let r := { r with buffer := r.buffer.drop (kHeaderSize + length) }
    if r.endOfBufferOffset - r.buffer.length - kHeaderSize - length < r.initialOffset then
      ⟨kBadRecord, [], r⟩
    else ⟨type, fragment, r⟩

def readPhysicalRecord (r : Reader) : Physical :=
  let r := if r.buffer.length < kHeaderSize ∧ r.eof = false then r.fill else r
  if r.buffer.length < kHeaderSize then ⟨kEof, [], { r with buffer := [] }⟩ else r.parse

def readRecordLoop : ℕ → Bool → ℕ → Bytes → Reader → Option Bytes × Reader
  | 0, _, _, _, r => (none, r)
  | n + 1, inFragmented, prospective, scratch, r =>
    let ph := r.readPhysicalRecord
    let offset := ph.reader.endOfBufferOffset - ph.reader.buffer.length - kHeaderSize -
      ph.fragment.length
    if ph.reader.resyncing = true ∧ ph.type = kMiddleType then
      readRecordLoop n inFragmented prospective scratch ph.reader
    else if ph.reader.resyncing = true ∧ ph.type = kLastType then
      readRecordLoop n inFragmented prospective scratch { ph.reader with resyncing := false }
    else
      let r := { ph.reader with resyncing := false }
      if ph.type = kFullType then
        let r := if inFragmented = true ∧ scratch ≠ [] then
          r.reportCorruption scratch.length "partial record without end(1)" else r
        (some ph.fragment, { r with lastRecordOffset := offset })
      else if ph.type = kFirstType then
        let r := if inFragmented = true ∧ scratch ≠ [] then
          r.reportCorruption scratch.length "partial record without end(2)" else r
        readRecordLoop n true offset ph.fragment r
      else if ph.type = kMiddleType then
        if inFragmented then readRecordLoop n true prospective (scratch ++ ph.fragment) r
        else
          readRecordLoop n false prospective scratch
            (r.reportCorruption ph.fragment.length "missing start of fragmented record(1)")
      else if ph.type = kLastType then
        if inFragmented then
          (some (scratch ++ ph.fragment), { r with lastRecordOffset := prospective })
        else
          readRecordLoop n false prospective scratch
            (r.reportCorruption ph.fragment.length "missing start of fragmented record(2)")
      else if ph.type = kEof then (none, r)
      else if ph.type = kBadRecord then
        if inFragmented then
          readRecordLoop n false prospective []
            (r.reportCorruption scratch.length "error in middle of record")
        else readRecordLoop n false prospective scratch r
      else
        readRecordLoop n false prospective []
          (r.reportCorruption (ph.fragment.length + if inFragmented then scratch.length else 0)
            ("unknown record type " ++ toString ph.type))

def readRecord (r : Reader) : Option Bytes × Reader :=
  let r := if r.lastRecordOffset < r.initialOffset then r.skipToInitialBlock else r
  readRecordLoop (r.buffer.length + r.file.length + 1) false 0 [] r

def recordsLoop : ℕ → Reader → List Bytes × Reader
  | 0, r => ([], r)
  | n + 1, r =>
    match r.readRecord with
    | (none, r) => ([], r)
    | (some record, r) =>
      let rest := recordsLoop n r
      (record :: rest.1, rest.2)

def records (r : Reader) : List Bytes × Reader := recordsLoop (r.buffer.length + r.file.length + 1) r

end Reader

end Log
