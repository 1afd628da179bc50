import Ssdb.Api.Hash

namespace SSDBImpl
open Keys Binlogs Strings

def SSDB_SCORE_MIN : Bytes := asBytes "-9223372036854775808"
def SSDB_SCORE_MAX : Bytes := asBytes "+9223372036854775807"

def zget (name key : Bytes) : M (Int × Option Bytes) := getRecord (encodeZsetKey name key)

def zsize (name : Bytes) : M Int64 := getCount (encodeZsizeKey name)

def incrZsize (name : Bytes) (incr : Int64) : M Int := incrCount (encodeZsizeKey name) incr

def filterScore (score : Bytes) : Bytes := str (int64 score)

def zsetOne (name key score : Bytes) (logType : Byte) : M Int :=
  if name = [] ∨ key = [] then return 0
  else if name.length > SSDB_KEY_LEN_MAX then return -1
  else if key.length > SSDB_KEY_LEN_MAX then return -1
  else do
    let newScore := filterScore score
    let (found, old) ← zget name key
    let oldScore := old.getD []
    if found = 0 ∨ oldScore ≠ newScore then
      if found ≠ 0 then Binlogs.Delete (encodeZscoreKey name key oldScore)
      Binlogs.Put (encodeZscoreKey name key newScore) []
      let k0 := encodeZsetKey name key
      Binlogs.Put k0 newScore
      addLog logType BinlogCommand.ZSET k0
      return if found ≠ 0 then 0 else 1
    else return 0

def zdelOne (name key : Bytes) (logType : Byte) : M Int :=
  if name.length > SSDB_KEY_LEN_MAX then return -1
  else if key.length > SSDB_KEY_LEN_MAX then return -1
  else do
    let (found, old) ← zget name key
    if found ≠ 1 then return 0
    else
      Binlogs.Delete (encodeZscoreKey name key (old.getD []))
      let k0 := encodeZsetKey name key
      Binlogs.Delete k0
      addLog logType BinlogCommand.ZDEL k0
      return 1

def zset (name key score : Bytes) (logType : Byte) : M Int := transaction do
  let ret ← zsetOne name key score logType
  settle ret (incrZsize name (Int64.ofInt ret))

def zdel (name key : Bytes) (logType : Byte) : M Int := transaction do
  let ret ← zdelOne name key logType
  settle ret (incrZsize name (Int64.ofInt (-ret)))

def zincr (name key : Bytes) (amount : Int64) (logType : Byte) : M (Int × Option Int64) :=
  transaction do
    let store (newVal : Int64) : M (Int × Option Int64) := do
      let ret ← zsetOne name key (str newVal) logType
      if ret = -1 then return (-1, some newVal)
      else
        let done ← settle ret (incrZsize name (Int64.ofInt ret))
        return (if done = -1 then -1 else 1, some newVal)
    let (ret, old) ← zget name key
    if ret = -1 then return (-1, none)
    else if ret = 0 then store amount
    else store (int64 (old.getD []) + amount)

def ziterator (db : LevelDB) (name keyStart scoreStart scoreEnd : Bytes) (limit : ℕ)
    (direction : Direction) : ZIterator :=
  match direction with
  | .forward =>
    let start :=
      if scoreStart = [] then encodeZscoreKey name keyStart SSDB_SCORE_MIN
      else encodeZscoreKey name keyStart scoreStart
    let stop :=
      if scoreEnd = [] then encodeZscoreKey name [255] SSDB_SCORE_MAX
      else encodeZscoreKey name [255] scoreEnd
    .new (db.iterator start stop limit) name
  | .backward =>
    let start :=
      if scoreStart = [] then encodeZscoreKey name keyStart SSDB_SCORE_MAX
      else if keyStart = [] then encodeZscoreKey name [255] scoreStart
      else encodeZscoreKey name keyStart scoreStart
    let stop :=
      if scoreEnd = [] then encodeZscoreKey name [] SSDB_SCORE_MIN
      else encodeZscoreKey name [] scoreEnd
    .new (db.revIterator start stop limit) name

def rankIn (key : Bytes) : List (Bytes × Bytes) → ℕ → Int
  | [], _ => -1
  | e :: es, ret => if key = e.1 then ret else rankIn key es (ret + 1)

def INT_MAX : ℕ := 2147483647

def zrank (name key : Bytes) : M Int := do
  let it := ziterator (← MonadState.get).ldb name [] [] [] INT_MAX .forward
  return rankIn key it.rest 0

def zrrank (name key : Bytes) : M Int := do
  let it := ziterator (← MonadState.get).ldb name [] [] [] INT_MAX .backward
  return rankIn key it.rest 0

def rangeLimit (offset limit : UInt64) : UInt64 :=
  if offset + limit > limit then offset + limit else limit

def zrange (name : Bytes) (offset limit : UInt64) : M ZIterator := do
  let it := ziterator (← MonadState.get).ldb name [] [] [] (rangeLimit offset limit).toNat .forward
  return (it.skip offset.toNat).2

def zrrange (name : Bytes) (offset limit : UInt64) : M ZIterator := do
  let it := ziterator (← MonadState.get).ldb name [] [] [] (rangeLimit offset limit).toNat .backward
  return (it.skip offset.toNat).2

def startScore (name key scoreStart : Bytes) : M Bytes := do
  if key ≠ [] ∧ scoreStart = [] then return (← zget name key).2.getD []
  else return scoreStart

def zscan (name key scoreStart scoreEnd : Bytes) (limit : UInt64) : M ZIterator := do
  let score ← startScore name key scoreStart
  return ziterator (← MonadState.get).ldb name key score scoreEnd limit.toNat .forward

def zrscan (name key scoreStart scoreEnd : Bytes) (limit : UInt64) : M ZIterator := do
  let score ← startScore name key scoreStart
  return ziterator (← MonadState.get).ldb name key score scoreEnd limit.toNat .backward

def zlist (nameS nameE : Bytes) (limit : UInt64) : M (List Bytes) := do
  let start := encodeZsizeKey nameS
  let stop := if nameE = [] then [] else encodeZsizeKey nameE
  return names DataType.ZSIZE decodeZsizeKey
    ((← MonadState.get).ldb.iterator start stop limit.toNat)

def zrlist (nameS nameE : Bytes) (limit : UInt64) : M (List Bytes) := do
  let start := if nameS = [] then encodeZsizeKey nameS ++ [255] else encodeZsizeKey nameS
  let stop := if nameE = [] then [] else encodeZsizeKey nameE
  return names DataType.ZSIZE decodeZsizeKey
    ((← MonadState.get).ldb.revIterator start stop limit.toNat)

def rawEntries (it : Iterator) : List (Bytes × Bytes) := it.items .item

def zfixScores (name : Bytes) : List (Bytes × Bytes) → Int64 → M Int64
  | [], size => return size
  | (ks, _) :: es, size =>
    if ks.head? ≠ some DataType.ZSCORE then return size
    else
      match decodeZscoreKey ks with
      | none => return -1
      | some (name2, key, score) =>
        if name ≠ name2 then return size
        else do
          let size := size + 1
          let buf := encodeZsetKey name key
          let found ← LevelDB.Get buf
          if found = .failed then return -1
          else if found = .notFound ∨ found ≠ .found score then
            if ← LevelDB.Write [.put buf score] then zfixScores name es size else return -1
          else zfixScores name es size

def zfixKeys (name : Bytes) : List (Bytes × Bytes) → Int64 → M Int64
  | [], size => return size
  | (ks, score) :: es, size =>
    if ks.head? ≠ some DataType.ZSET then return size
    else
      match decodeZsetKey ks with
      | none => return -1
      | some (name2, key) =>
        if name ≠ name2 then return size
        else do
          let size := size + 1
          let buf := encodeZscoreKey name key score
          let found ← LevelDB.Get buf
          if found = .failed then return -1
          else if found = .notFound then
            if ← LevelDB.Write [.put buf []] then zfixKeys name es size else return -1
          else zfixKeys name es size

def zfixSize (name : Bytes) (size : Int64) : M Int64 := do
  if size = -1 then return -1
  else
    let oldSize ← zsize name
    if oldSize = -1 then return -1
    else
      if oldSize ≠ size then
        let sizeKey := encodeZsizeKey name
        let _ ← LevelDB.Write
          [if size = 0 then .delete sizeKey else .put sizeKey (Endian.memory size.toUInt64)]
      return size

def UINT64_MAX : UInt64 := 18446744073709551615

def zfix (name : Bytes) : M Int64 := transaction do
  let start := encodeZscoreKey name [] SSDB_SCORE_MIN
  let stop := encodeZscoreKey name [255] SSDB_SCORE_MAX
  let es := rawEntries ((← MonadState.get).ldb.iterator start stop UINT64_MAX.toNat)
  let size ← zfixSize name (← zfixScores name es 0)
  if size = -1 then return -1
  else
    let start := encodeZsetKey name []
    let stop := encodeZsetKey (name ++ [255]) []
    let es := rawEntries ((← MonadState.get).ldb.iterator start stop UINT64_MAX.toNat)
    zfixSize name (← zfixKeys name es 0)

end SSDBImpl
