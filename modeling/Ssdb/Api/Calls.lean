import Ssdb.Api.Queue

namespace SSDBImpl
open Keys Binlogs

def flushRound : List (Bytes × Bytes) → M Bool
  | [] => return true
  | (key, _) :: es => do
    if ← LevelDB.Write [.delete key] then flushRound es else return false

def flushdbFrom : ℕ → M Int
  | 0 => return 0
  | fuel + 1 => do
    let es := (← MonadState.get).ldb.table.entries
    if ← flushRound (es.take 10000) then
      if es.length < 10000 then return 0 else flushdbFrom fuel
    else return -1

def flushdb : M Int := do
  let ret ← transaction do flushdbFrom ((← MonadState.get).ldb.table.size + 1)
  let _ ← flush
  return ret

def rangeEnd (type : Byte) (decode : Bytes → Option Bytes) (it : Iterator) : Int × Bytes :=
  match it.next with
  | (false, _) => (0, [])
  | (true, it) =>
    if it.key.head? = some type then
      match decode it.key with
      | none => (-1, [])
      | some n => (0, n)
    else (0, [])

def keyRange : M (Int × List Bytes) := do
  let db := (← MonadState.get).ldb
  let ends := [
    rangeEnd DataType.KV decodeKvKey (db.iterator (encodeKvKey []) [] 1),
    rangeEnd DataType.KV decodeKvKey (db.revIterator (encodeKvKey [255]) [] 1),
    rangeEnd DataType.HSIZE decodeHsizeKey (db.iterator (encodeHsizeKey []) [] 1),
    rangeEnd DataType.HSIZE decodeHsizeKey (db.revIterator (encodeHsizeKey [255]) [] 1),
    rangeEnd DataType.ZSIZE decodeZsizeKey (db.iterator (encodeZsizeKey []) [] 1),
    rangeEnd DataType.ZSIZE decodeZsizeKey (db.revIterator (encodeZsizeKey [255]) [] 1),
    rangeEnd DataType.QSIZE decodeQsizeKey (db.iterator (encodeQsizeKey []) [] 1),
    rangeEnd DataType.QSIZE decodeQsizeKey (db.revIterator (encodeQsizeKey [255]) [] 1)]
  return (if ends.any (fun e => e.1 = -1) then -1 else 0, ends.map Prod.snd)

end SSDBImpl

inductive Call where
  | set (key val : Bytes) (logType : Byte)
  | setnx (key val : Bytes) (logType : Byte)
  | getset (key newval : Bytes) (logType : Byte)
  | del (key : Bytes) (logType : Byte)
  | incr (key : Bytes) (amount : Int64) (logType : Byte)
  | setbit (key : Bytes) (bitoffset : ℕ) (on : Int) (logType : Byte)
  | multiSet (kvs : List (Bytes × Bytes)) (logType : Byte)
  | multiDel (keys : List Bytes) (logType : Byte)
  | hset (name key val : Bytes) (logType : Byte)
  | hdel (name key : Bytes) (logType : Byte)
  | hincr (name key : Bytes) (amount : Int64) (logType : Byte)
  | zset (name key score : Bytes) (logType : Byte)
  | zdel (name key : Bytes) (logType : Byte)
  | zincr (name key : Bytes) (amount : Int64) (logType : Byte)
  | qpushFront (name item : Bytes) (logType : Byte)
  | qpushBack (name item : Bytes) (logType : Byte)
  | qpopFront (name : Bytes) (logType : Byte)
  | qpopBack (name : Bytes) (logType : Byte)
  | qset (name : Bytes) (index : Int64) (item : Bytes) (logType : Byte)
  | qsetBySeq (name : Bytes) (seq : UInt64) (item : Bytes) (logType : Byte)
  | qfix (name : Bytes)
  | hclear (name : Bytes)
  | zfix (name : Bytes)
  | flushdb
  | get (key : Bytes)
  | getbit (key : Bytes) (bitoffset : ℕ)
  | scan (start stop : Bytes) (limit : UInt64)
  | rscan (start stop : Bytes) (limit : UInt64)
  | hget (name key : Bytes)
  | hsize (name : Bytes)
  | hscan (name start stop : Bytes) (limit : UInt64)
  | hrscan (name start stop : Bytes) (limit : UInt64)
  | hlist (nameS nameE : Bytes) (limit : UInt64)
  | hrlist (nameS nameE : Bytes) (limit : UInt64)
  | zget (name key : Bytes)
  | zsize (name : Bytes)
  | zrank (name key : Bytes)
  | zrrank (name key : Bytes)
  | zrange (name : Bytes) (offset limit : UInt64)
  | zrrange (name : Bytes) (offset limit : UInt64)
  | zscan (name key scoreStart scoreEnd : Bytes) (limit : UInt64)
  | zrscan (name key scoreStart scoreEnd : Bytes) (limit : UInt64)
  | zlist (nameS nameE : Bytes) (limit : UInt64)
  | zrlist (nameS nameE : Bytes) (limit : UInt64)
  | qsize (name : Bytes)
  | qfront (name : Bytes)
  | qback (name : Bytes)
  | qget (name : Bytes) (index : Int64)
  | qslice (name : Bytes) (first last : Int64)
  | qlist (nameS nameE : Bytes) (limit : UInt64)
  | qrlist (nameS nameE : Bytes) (limit : UInt64)
  | keyRange
deriving DecidableEq, Repr

structure Reply where
  ret : Int
  out : Option Bytes
  newVal : Option Int64
  entries : List (Bytes × Bytes)
  names : List Bytes
deriving DecidableEq, Repr

namespace Reply

def code (ret : Int) : Reply := ⟨ret, none, none, [], []⟩
def ofOut (r : Int × Option Bytes) : Reply := ⟨r.1, r.2, none, [], []⟩
def ofNewVal (r : Int × Option Int64) : Reply := ⟨r.1, none, r.2, [], []⟩
def ofEntries (es : List (Bytes × Bytes)) : Reply := ⟨0, none, none, es, []⟩
def ofNames (ret : Int) (ns : List Bytes) : Reply := ⟨ret, none, none, [], ns⟩

end Reply

namespace Call
open SSDBImpl

def run : Call → M Reply
  | set key val t => Reply.code <$> SSDBImpl.set key val t
  | setnx key val t => Reply.code <$> SSDBImpl.setnx key val t
  | getset key newval t => Reply.ofOut <$> SSDBImpl.getset key newval t
  | del key t => Reply.code <$> SSDBImpl.del key t
  | incr key amount t => Reply.ofNewVal <$> SSDBImpl.incr key amount t
  | setbit key bitoffset on t => Reply.code <$> SSDBImpl.setbit key bitoffset on t
  | multiSet kvs t => Reply.code <$> SSDBImpl.multiSet kvs t
  | multiDel keys t => Reply.code <$> SSDBImpl.multiDel keys t
  | hset name key val t => Reply.code <$> SSDBImpl.hset name key val t
  | hdel name key t => Reply.code <$> SSDBImpl.hdel name key t
  | hincr name key amount t => Reply.ofNewVal <$> SSDBImpl.hincr name key amount t
  | zset name key score t => Reply.code <$> SSDBImpl.zset name key score t
  | zdel name key t => Reply.code <$> SSDBImpl.zdel name key t
  | zincr name key amount t => Reply.ofNewVal <$> SSDBImpl.zincr name key amount t
  | qpushFront name item t => (Reply.code ·.toInt) <$> SSDBImpl.qpushFront name item t
  | qpushBack name item t => (Reply.code ·.toInt) <$> SSDBImpl.qpushBack name item t
  | qpopFront name t => Reply.ofOut <$> SSDBImpl.qpopFront name t
  | qpopBack name t => Reply.ofOut <$> SSDBImpl.qpopBack name t
  | qset name index item t => Reply.code <$> SSDBImpl.qset name index item t
  | qsetBySeq name seq item t => Reply.code <$> SSDBImpl.qsetBySeq name seq item t
  | qfix name => Reply.code <$> SSDBImpl.qfix name
  | hclear name => Reply.code <$> SSDBImpl.hclear name
  | zfix name => (Reply.code ·.toInt) <$> SSDBImpl.zfix name
  | flushdb => Reply.code <$> SSDBImpl.flushdb
  | get key => Reply.ofOut <$> SSDBImpl.get key
  | getbit key bitoffset => Reply.code <$> SSDBImpl.getbit key bitoffset
  | scan start stop limit => (Reply.ofEntries ·.rest) <$> SSDBImpl.scan start stop limit
  | rscan start stop limit => (Reply.ofEntries ·.rest) <$> SSDBImpl.rscan start stop limit
  | hget name key => Reply.ofOut <$> SSDBImpl.hget name key
  | hsize name => (Reply.code ·.toInt) <$> SSDBImpl.hsize name
  | hscan name start stop limit => (Reply.ofEntries ·.rest) <$> SSDBImpl.hscan name start stop limit
  | hrscan name start stop limit => (Reply.ofEntries ·.rest) <$> SSDBImpl.hrscan name start stop limit
  | hlist nameS nameE limit => Reply.ofNames 0 <$> SSDBImpl.hlist nameS nameE limit
  | hrlist nameS nameE limit => Reply.ofNames 0 <$> SSDBImpl.hrlist nameS nameE limit
  | zget name key => Reply.ofOut <$> SSDBImpl.zget name key
  | zsize name => (Reply.code ·.toInt) <$> SSDBImpl.zsize name
  | zrank name key => Reply.code <$> SSDBImpl.zrank name key
  | zrrank name key => Reply.code <$> SSDBImpl.zrrank name key
  | zrange name offset limit => (Reply.ofEntries ·.rest) <$> SSDBImpl.zrange name offset limit
  | zrrange name offset limit => (Reply.ofEntries ·.rest) <$> SSDBImpl.zrrange name offset limit
  | zscan name key scoreStart scoreEnd limit =>
    (Reply.ofEntries ·.rest) <$> SSDBImpl.zscan name key scoreStart scoreEnd limit
  | zrscan name key scoreStart scoreEnd limit =>
    (Reply.ofEntries ·.rest) <$> SSDBImpl.zrscan name key scoreStart scoreEnd limit
  | zlist nameS nameE limit => Reply.ofNames 0 <$> SSDBImpl.zlist nameS nameE limit
  | zrlist nameS nameE limit => Reply.ofNames 0 <$> SSDBImpl.zrlist nameS nameE limit
  | qsize name => (Reply.code ·.toInt) <$> SSDBImpl.qsize name
  | qfront name => Reply.ofOut <$> SSDBImpl.qfront name
  | qback name => Reply.ofOut <$> SSDBImpl.qback name
  | qget name index => Reply.ofOut <$> SSDBImpl.qget name index
  | qslice name first last => (fun r => Reply.ofNames r.1 r.2) <$> SSDBImpl.qslice name first last
  | qlist nameS nameE limit => Reply.ofNames 0 <$> SSDBImpl.qlist nameS nameE limit
  | qrlist nameS nameE limit => Reply.ofNames 0 <$> SSDBImpl.qrlist nameS nameE limit
  | keyRange => (fun r => Reply.ofNames r.1 r.2) <$> SSDBImpl.keyRange

def exec (c : Call) (f : Faults) (w : SSDBImpl) : Reply × SSDBImpl :=
  let (r, w) := c.run { w with faults := f }
  (r, { w with faults := .none })

def execAll : List (Call × Faults) → SSDBImpl → List Reply × SSDBImpl
  | [], w => ([], w)
  | (c, f) :: cs, w =>
    let (r, w) := c.exec f w
    let (rs, w) := execAll cs w
    (r :: rs, w)

end Call
