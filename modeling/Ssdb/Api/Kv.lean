import Ssdb.Store.Iterator

namespace SSDBImpl
open Keys Binlogs

/-- A point read: `1` and the value, `0` when there is none, `-1` when leveldb fails. -/
def getRecord (dbkey : Bytes) : M (Int × Option Bytes) := do
  match ← LevelDB.Get dbkey with
  | .notFound => return (0, none)
  | .failed => return (-1, none)
  | .found val => return (1, some val)

def getCount (sizeKey : Bytes) : M Int64 := do
  match ← LevelDB.Get sizeKey with
  | .notFound => return 0
  | .failed => return -1
  | .found val =>
    if val.length ≠ 8 then return 0
    else
      let ret := (Endian.ofMemory val).toInt64
      return if ret < 0 then 0 else ret

def incrCount (sizeKey : Bytes) (incr : Int64) : M Int := do
  let size ← getCount sizeKey
  let size := size + incr
  if size = 0 then Binlogs.Delete sizeKey
  else Binlogs.Put sizeKey (Endian.memory size.toUInt64)
  return 0

def commitOr (ret : Int) : M Int := do
  if ← commit then return ret else return -1

/-- The end of the hash and sorted set writes: `ret` is the number of items added or removed
and `incr` adjusts the size record by it. -/
def settle (ret : Int) (incr : M Int) : M Int := do
  if ret ≥ 0 then
    if ret > 0 then
      if (← incr) = -1 then return -1
    commitOr ret
  else return ret

def multiSetFrom (count : Int) (logType : Byte) : List (Bytes × Bytes) → M Int
  | [] => commitOr count
  | (key, val) :: kvs => do
    if key = [] then return 0
    else if key.length > SSDB_KEY_LEN_MAX then return 0
    else
      let buf := encodeKvKey key
      Binlogs.Put buf val
      addLog logType BinlogCommand.KSET buf
      multiSetFrom count logType kvs

def multiSet (kvs : List (Bytes × Bytes)) (logType : Byte) : M Int :=
  transaction (multiSetFrom kvs.length logType kvs)

def multiDelFrom (count : Int) (logType : Byte) : List Bytes → M Int
  | [] => commitOr count
  | key :: keys => do
    let buf := encodeKvKey key
    Binlogs.Delete buf
    addLog logType BinlogCommand.KDEL buf
    multiDelFrom count logType keys

def multiDel (keys : List Bytes) (logType : Byte) : M Int :=
  transaction (multiDelFrom keys.length logType keys)

def get (key : Bytes) : M (Int × Option Bytes) := getRecord (encodeKvKey key)

def set (key val : Bytes) (logType : Byte) : M Int :=
  if key = [] then return 0
  else if key.length > SSDB_KEY_LEN_MAX then return -1
  else transaction do
    let buf := encodeKvKey key
    Binlogs.Put buf val
    addLog logType BinlogCommand.KSET buf
    commitOr 1

def setnx (key val : Bytes) (logType : Byte) : M Int :=
  if key = [] then return 0
  else if key.length > SSDB_KEY_LEN_MAX then return -1
  else transaction do
    let (found, _) ← get key
    if found ≠ 0 then return 0
    else
      let buf := encodeKvKey key
      Binlogs.Put buf val
      addLog logType BinlogCommand.KSET buf
      commitOr 1

def getset (key newval : Bytes) (logType : Byte) : M (Int × Option Bytes) :=
  if key = [] then return (0, none)
  else if key.length > SSDB_KEY_LEN_MAX then return (-1, none)
  else transaction do
    let (found, val) ← get key
    let buf := encodeKvKey key
    Binlogs.Put buf newval
    addLog logType BinlogCommand.KSET buf
    return (← commitOr found, val)

def del (key : Bytes) (logType : Byte) : M Int :=
  if key.length > SSDB_KEY_LEN_MAX then return -1
  else transaction do
    let buf := encodeKvKey key
    Binlogs.Delete buf
    addLog logType BinlogCommand.KDEL buf
    commitOr 1

/-- The second component is what is assigned to `*new_val`, if anything. -/
def incr (key : Bytes) (amount : Int64) (logType : Byte) : M (Int × Option Int64) :=
  if key.length > SSDB_KEY_LEN_MAX then return (-1, none)
  else transaction do
    let store (newVal : Int64) : M (Int × Option Int64) := do
      let buf := encodeKvKey key
      Binlogs.Put buf (Strings.str newVal)
      addLog logType BinlogCommand.KSET buf
      return (← commitOr 1, some newVal)
    let (ret, old) ← get key
    if ret = -1 then return (-1, none)
    else if ret = 0 then store amount
    else
      let (v, whole) := Strings.strToInt64 (old.getD [])
      let newVal := v + amount
      if whole then store newVal else return (0, some newVal)

/-- Bit `7 - i % 8` of byte `i / 8`: `val[len] & (1 << bit)`. -/
def bitOf (val : Bytes) (bitoffset : ℕ) : ℕ :=
  (val.getD (bitoffset / 8) 0).val &&& 2 ^ (7 - bitoffset % 8)

def withBit (val : Bytes) (bitoffset : ℕ) (on : Int) : Bytes :=
  let len := bitoffset / 8
  let mask := 2 ^ (7 - bitoffset % 8)
  let byte := (val.getD len 0).val
  val.set len (Fin.ofNat 256 (if on = 1 then byte ||| mask else byte &&& (255 ^^^ mask)))

def padTo (len : ℕ) (val : Bytes) : Bytes :=
  if len ≥ val.length then val ++ List.replicate (len + 1 - val.length) 0 else val

def setbit (key : Bytes) (bitoffset : ℕ) (on : Int) (logType : Byte) : M Int :=
  if key = [] then return 0
  else if key.length > SSDB_KEY_LEN_MAX then return -1
  else transaction do
    let (ret, val) ← get key
    if ret = -1 then return -1
    else
      let val := padTo (bitoffset / 8) (val.getD [])
      let orig := bitOf val bitoffset
      let buf := encodeKvKey key
      Binlogs.Put buf (withBit val bitoffset on)
      addLog logType BinlogCommand.KSET buf
      commitOr orig

def getbit (key : Bytes) (bitoffset : ℕ) : M Int := do
  let (ret, val) ← get key
  let val := val.getD []
  if ret = -1 then return -1
  else if bitoffset / 8 ≥ val.length then return 0
  else return if bitOf val bitoffset = 0 then 0 else 1

def scan (start stop : Bytes) (limit : UInt64) : M KIterator := do
  let keyStart := encodeKvKey start
  let keyEnd := if stop = [] then [] else encodeKvKey stop
  return .new ((← MonadState.get).ldb.iterator keyStart keyEnd limit.toNat)

def rscan (start stop : Bytes) (limit : UInt64) : M KIterator := do
  let keyStart := if start = [] then encodeKvKey start ++ [255] else encodeKvKey start
  let keyEnd := if stop = [] then [] else encodeKvKey stop
  return .new ((← MonadState.get).ldb.revIterator keyStart keyEnd limit.toNat)

end SSDBImpl
