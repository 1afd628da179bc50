import Ssdb.Api.Zset

namespace SSDBImpl
open Keys Binlogs

def QFRONT_SEQ : UInt64 := 2
def QBACK_SEQ : UInt64 := 3
def QITEM_MIN_SEQ : UInt64 := 10000
def QITEM_MAX_SEQ : UInt64 := 9223372036854775807
def QITEM_SEQ_INIT : UInt64 := QITEM_MAX_SEQ / 2

def qgetBySeq (name : Bytes) (seq : UInt64) : M (Int × Option Bytes) :=
  getRecord (encodeQitemKey name seq)

def qgetUint64 (name : Bytes) (seq : UInt64) : M (Int × UInt64) := do
  let (s, val) ← qgetBySeq name seq
  if s = 1 then
    let val := val.getD []
    if val.length ≠ 8 then return (-1, 0) else return (s, Endian.ofMemory val)
  else return (s, 0)

def qdelOne (name : Bytes) (seq : UInt64) : M Int := do
  Binlogs.Delete (encodeQitemKey name seq)
  return 0

def qsetOne (name : Bytes) (seq : UInt64) (item : Bytes) : M Int :=
  if name.length > SSDB_KEY_LEN_MAX then return -1
  else do
    Binlogs.Put (encodeQitemKey name seq) item
    return 0

def qsize (name : Bytes) : M Int64 := do
  match ← LevelDB.Get (encodeQsizeKey name) with
  | .notFound => return 0
  | .failed => return -1
  | .found val => if val.length ≠ 8 then return -1 else return (Endian.ofMemory val).toInt64

def incrQsize (name : Bytes) (incr : Int64) : M Int64 := do
  let size ← qsize name
  if size = -1 then return -1
  else
    let size := size + incr
    if size ≤ 0 then
      Binlogs.Delete (encodeQsizeKey name)
      let _ ← qdelOne name QFRONT_SEQ
      let _ ← qdelOne name QBACK_SEQ
    else Binlogs.Put (encodeQsizeKey name) (Endian.memory size.toUInt64)
    return size

def qpeek (endSeq : UInt64) (name : Bytes) : M (Int × Option Bytes) := do
  let (ret, seq) ← qgetUint64 name endSeq
  if ret = -1 then return (-1, none)
  else if ret = 0 then return (0, none)
  else qgetBySeq name seq

def qfront (name : Bytes) : M (Int × Option Bytes) := qpeek QFRONT_SEQ name

def qback (name : Bytes) : M (Int × Option Bytes) := qpeek QBACK_SEQ name

def qsetBySeq (name : Bytes) (seq : UInt64) (item : Bytes) (logType : Byte) : M Int :=
  transaction do
    let size ← qsize name
    if size = -1 then return -1
    else
      let (ret, minSeq) ← qgetUint64 name QFRONT_SEQ
      if ret = -1 then return -1
      else
        let maxSeq := minSeq + size.toUInt64
        if seq < minSeq ∨ seq > maxSeq then return 0
        else if (← qsetOne name seq item) = -1 then return -1
        else
          addLog logType BinlogCommand.QSET (encodeQitemKey name seq)
          commitOr 1

def seqOf (name : Bytes) (index : Int64) : M (Int × UInt64) := do
  if index ≥ 0 then
    let (ret, seq) ← qgetUint64 name QFRONT_SEQ
    return (ret, seq + index.toUInt64)
  else
    let (ret, seq) ← qgetUint64 name QBACK_SEQ
    return (ret, seq + (index + 1).toUInt64)

def qset (name : Bytes) (index : Int64) (item : Bytes) (logType : Byte) : M Int :=
  transaction do
    let size ← qsize name
    if size = -1 then return -1
    else if index ≥ size ∨ index < -size then return 0
    else
      let (ret, seq) ← seqOf name index
      if ret = -1 then return -1
      else if ret = 0 then return 0
      else if (← qsetOne name seq item) = -1 then return -1
      else
        addLog logType BinlogCommand.QSET (encodeQitemKey name seq)
        commitOr 1

def pushSeq (name : Bytes) (frontOrBackSeq : UInt64) (ret : Int) (seq : UInt64) :
    M (Int × UInt64) := do
  if ret = 0 then
    let seq := QITEM_SEQ_INIT
    if (← qsetOne name QFRONT_SEQ (Endian.memory seq)) = -1 then return (-1, seq)
    else return (← qsetOne name QBACK_SEQ (Endian.memory seq), seq)
  else
    let seq := if frontOrBackSeq = QFRONT_SEQ then seq - 1 else seq + 1
    return (← qsetOne name frontOrBackSeq (Endian.memory seq), seq)

def qpush (name item : Bytes) (frontOrBackSeq : UInt64) (logType : Byte) : M Int64 :=
  transaction do
    let (ret, seq) ← qgetUint64 name frontOrBackSeq
    if ret = -1 then return -1
    else
      let (ret, seq) ← pushSeq name frontOrBackSeq ret seq
      if ret = -1 then return -1
      else if seq ≤ QITEM_MIN_SEQ ∨ seq ≥ QITEM_MAX_SEQ then return -1
      else if (← qsetOne name seq item) = -1 then return -1
      else
        let buf := encodeQitemKey name seq
        if frontOrBackSeq = QFRONT_SEQ then addLog logType BinlogCommand.QPUSH_FRONT buf
        else addLog logType BinlogCommand.QPUSH_BACK buf
        let size ← incrQsize name 1
        if size = -1 then return -1
        else if ← commit then return size
        else return -1

def qpushFront (name item : Bytes) (logType : Byte) : M Int64 := qpush name item QFRONT_SEQ logType

def qpushBack (name item : Bytes) (logType : Byte) : M Int64 := qpush name item QBACK_SEQ logType

def qpop (name : Bytes) (frontOrBackSeq : UInt64) (logType : Byte) : M (Int × Option Bytes) :=
  transaction do
    let (ret, seq) ← qgetUint64 name frontOrBackSeq
    if ret = -1 then return (-1, none)
    else if ret = 0 then return (0, none)
    else
      let (ret, item) ← qgetBySeq name seq
      if ret = -1 then return (-1, none)
      else if ret = 0 then return (0, none)
      else if (← qdelOne name seq) = -1 then return (-1, item)
      else
        if frontOrBackSeq = QFRONT_SEQ then addLog logType BinlogCommand.QPOP_FRONT name
        else addLog logType BinlogCommand.QPOP_BACK name
        let size ← incrQsize name (-1)
        if size = -1 then return (-1, item)
        else
          let seq := if frontOrBackSeq = QFRONT_SEQ then seq + 1 else seq - 1
          if size > 0 then
            if (← qsetOne name frontOrBackSeq (Endian.memory seq)) = -1 then return (-1, item)
          return (← commitOr 1, item)

def qpopFront (name : Bytes) (logType : Byte) : M (Int × Option Bytes) := qpop name QFRONT_SEQ logType

def qpopBack (name : Bytes) (logType : Byte) : M (Int × Option Bytes) := qpop name QBACK_SEQ logType

def qlist (nameS nameE : Bytes) (limit : UInt64) : M (List Bytes) := do
  let start := encodeQsizeKey nameS
  let stop := if nameE = [] then [] else encodeQsizeKey nameE
  return names DataType.QSIZE decodeQsizeKey
    ((← MonadState.get).ldb.iterator start stop limit.toNat)

def qrlist (nameS nameE : Bytes) (limit : UInt64) : M (List Bytes) := do
  let start := if nameS = [] then encodeQsizeKey nameS ++ [255] else encodeQsizeKey nameS
  let stop := if nameE = [] then [] else encodeQsizeKey nameE
  return names DataType.QSIZE decodeQsizeKey
    ((← MonadState.get).ldb.revIterator start stop limit.toNat)

structure Found where
  seqMin : UInt64
  seqMax : UInt64
  count : UInt64
deriving DecidableEq, Repr

def qfixScan : List (Bytes × Bytes) → Found → Option Found
  | [], f => some f
  | (ks, _) :: es, f =>
    match decodeQitemKey ks with
    | none => none
    | some (_, seq) =>
      qfixScan es ⟨if f.seqMin = 0 then seq else f.seqMin, seq, f.count + 1⟩

def qfix (name : Bytes) : M Int := transaction do
  let keyS := encodeQitemKey name (QITEM_MIN_SEQ - 1)
  let keyE := encodeQitemKey name QITEM_MAX_SEQ
  let es := rawEntries ((← MonadState.get).ldb.iterator keyS keyE QITEM_MAX_SEQ.toNat)
  match qfixScan es ⟨0, 0, 0⟩ with
  | none => return -1
  | some f =>
    if f.count = 0 then
      Binlogs.Delete (encodeQsizeKey name)
      let _ ← qdelOne name QFRONT_SEQ
      let _ ← qdelOne name QBACK_SEQ
    else
      Binlogs.Put (encodeQsizeKey name) (Endian.memory f.count)
      let _ ← qsetOne name QFRONT_SEQ (Endian.memory f.seqMin)
      let _ ← qsetOne name QBACK_SEQ (Endian.memory f.seqMax)
    commitOr 0

def qsliceFrom (name : Bytes) (seqEnd : UInt64) : ℕ → UInt64 → List Bytes → M (Int × List Bytes)
  | 0, _, list => return (0, list)
  | fuel + 1, seq, list =>
    if seq ≤ seqEnd then do
      let (ret, item) ← qgetBySeq name seq
      if ret = -1 then return (-1, list)
      else if ret = 0 then return (0, list)
      else qsliceFrom name seqEnd fuel (seq + 1) (list ++ [item.getD []])
    else return (0, list)

def qsliceBounds (name : Bytes) (first last : Int64) : M (Int × UInt64 × UInt64) := do
  if first ≥ 0 ∧ last ≥ 0 then
    let (ret, seq) ← qgetUint64 name QFRONT_SEQ
    return (ret, seq + first.toUInt64, seq + last.toUInt64)
  else if first < 0 ∧ last < 0 then
    let (ret, seq) ← qgetUint64 name QBACK_SEQ
    return (ret, seq + (first + 1).toUInt64, seq + (last + 1).toUInt64)
  else
    let (ret, f) ← qgetUint64 name QFRONT_SEQ
    if ret ≠ 1 then return (ret, 0, 0)
    else
      let (ret, b) ← qgetUint64 name QBACK_SEQ
      return (ret, if first ≥ 0 then f + first.toUInt64 else b + (first + 1).toUInt64,
        if last ≥ 0 then f + last.toUInt64 else b + (last + 1).toUInt64)

def qslice (name : Bytes) (first last : Int64) : M (Int × List Bytes) := do
  let (ret, seqBegin, seqEnd) ← qsliceBounds name first last
  if ret ≠ 1 then return (ret, [])
  else qsliceFrom name seqEnd ((← MonadState.get).ldb.table.size + 1) seqBegin []

def qget (name : Bytes) (index : Int64) : M (Int × Option Bytes) := do
  let (ret, seq) ← seqOf name index
  if ret = -1 then return (-1, none)
  else if ret = 0 then return (0, none)
  else qgetBySeq name seq

end SSDBImpl
