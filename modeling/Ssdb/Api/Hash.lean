import Ssdb.Api.Kv

namespace SSDBImpl
open Keys Binlogs

def hget (name key : Bytes) : M (Int × Option Bytes) := getRecord (encodeHashKey name key)

def hsize (name : Bytes) : M Int64 := getCount (encodeHsizeKey name)

def incrHsize (name : Bytes) (incr : Int64) : M Int := incrCount (encodeHsizeKey name) incr

def hsetOne (name key val : Bytes) (logType : Byte) : M Int :=
  if name = [] ∨ key = [] then return -1
  else if name.length > SSDB_KEY_LEN_MAX then return -1
  else if key.length > SSDB_KEY_LEN_MAX then return -1
  else do
    let hkey := encodeHashKey name key
    let (found, dbval) ← hget name key
    if found = 0 then
      Binlogs.Put hkey val
      addLog logType BinlogCommand.HSET hkey
      return 1
    else
      if dbval.getD [] ≠ val then
        Binlogs.Put hkey val
        addLog logType BinlogCommand.HSET hkey
      return 0

def hdelOne (name key : Bytes) (logType : Byte) : M Int :=
  if name.length > SSDB_KEY_LEN_MAX then return -1
  else if key.length > SSDB_KEY_LEN_MAX then return -1
  else do
    let (found, _) ← hget name key
    if found = 0 then return 0
    else
      let hkey := encodeHashKey name key
      Binlogs.Delete hkey
      addLog logType BinlogCommand.HDEL hkey
      return 1

def hset (name key val : Bytes) (logType : Byte) : M Int := transaction do
  let ret ← hsetOne name key val logType
  settle ret (incrHsize name (Int64.ofInt ret))

def hdel (name key : Bytes) (logType : Byte) : M Int := transaction do
  let ret ← hdelOne name key logType
  settle ret (incrHsize name (Int64.ofInt (-ret)))

def hincr (name key : Bytes) (amount : Int64) (logType : Byte) : M (Int × Option Int64) :=
  transaction do
    let store (newVal : Int64) : M (Int × Option Int64) := do
      let ret ← hsetOne name key (Strings.str newVal) logType
      if ret = -1 then return (-1, some newVal)
      else
        let done ← settle ret (incrHsize name (Int64.ofInt ret))
        return (if done = -1 then -1 else 1, some newVal)
    let (ret, old) ← hget name key
    if ret = -1 then return (-1, none)
    else if ret = 0 then store amount
    else
      let (v, whole) := Strings.strToInt64 (old.getD [])
      let newVal := v + amount
      if whole then store newVal else return (0, some newVal)

def hscan (name start stop : Bytes) (limit : UInt64) : M HIterator := do
  let keyStart := encodeHashKey name start
  let keyEnd := if stop = [] then [] else encodeHashKey name stop
  return .new ((← MonadState.get).ldb.iterator keyStart keyEnd limit.toNat) name

def hrscan (name start stop : Bytes) (limit : UInt64) : M HIterator := do
  let keyStart := if start = [] then encodeHashKey name start ++ [255] else encodeHashKey name start
  let keyEnd := if stop = [] then [] else encodeHashKey name stop
  return .new ((← MonadState.get).ldb.revIterator keyStart keyEnd limit.toNat) name

def hclearRound (name : Bytes) (logType : Byte) : List (Bytes × Bytes) → ℕ → M (Option ℕ)
  | [], num => return some num
  | (key, _) :: rest, num => do
    if (← hdel name key logType) = -1 then return none
    else hclearRound name logType rest (num + 1)

def hclearFrom (name : Bytes) : ℕ → ℕ → M Int
  | 0, count => return count
  | fuel + 1, count => do
    let it ← hscan name [] [] 1000
    match ← hclearRound name BinlogType.SYNC it.rest 0 with
    | none => return 0
    | some 0 => return count
    | some num => hclearFrom name fuel (count + num)

def hclear (name : Bytes) : M Int := do
  hclearFrom name ((← MonadState.get).ldb.table.size + 1) 0

def names (type : Byte) (decode : Bytes → Option Bytes) (it : Iterator) : List Bytes :=
  it.items (nameVerdict type decode)

def hlist (nameS nameE : Bytes) (limit : UInt64) : M (List Bytes) := do
  let start := encodeHsizeKey nameS
  let stop := if nameE = [] then [] else encodeHsizeKey nameE
  return names DataType.HSIZE decodeHsizeKey
    ((← MonadState.get).ldb.iterator start stop limit.toNat)

def hrlist (nameS nameE : Bytes) (limit : UInt64) : M (List Bytes) := do
  let start := if nameS = [] then encodeHsizeKey nameS ++ [255] else encodeHsizeKey nameS
  let stop := if nameE = [] then [] else encodeHsizeKey nameE
  return names DataType.HSIZE decodeHsizeKey
    ((← MonadState.get).ldb.revIterator start stop limit.toNat)

end SSDBImpl
