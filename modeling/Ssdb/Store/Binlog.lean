import Ssdb.Store.Keys
import Ssdb.Store.LevelDB

namespace BinlogType

def SYNC : Byte := 1

end BinlogType

namespace BinlogCommand

def KSET : Byte := 1
def KDEL : Byte := 2
def HSET : Byte := 3
def HDEL : Byte := 4
def ZSET : Byte := 5
def ZDEL : Byte := 6
def QPUSH_BACK : Byte := 10
def QPUSH_FRONT : Byte := 11
def QPOP_BACK : Byte := 12
def QPOP_FRONT : Byte := 13
def QSET : Byte := 14

end BinlogCommand

def Binlog (seq : UInt64) (type cmd : Byte) (key : Bytes) : Bytes :=
  Endian.memory seq ++ type :: cmd :: key

namespace BinlogQueue

def begin (q : BinlogQueue) : BinlogQueue := { q with tranSeq := q.lastSeq, batch := [] }

def rollback (q : BinlogQueue) : BinlogQueue := { q with tranSeq := 0 }

def addLog (type cmd : Byte) (key : Bytes) (q : BinlogQueue) : BinlogQueue :=
  if !q.enabled then q
  else
    let seq := q.tranSeq + 1
    { q with
      tranSeq := seq
      batch := q.batch ++ [.put (Keys.encodeSeqKey seq) (Binlog seq type cmd key)] }

def Put (key value : Bytes) (q : BinlogQueue) : BinlogQueue :=
  { q with batch := q.batch ++ [.put key value] }

def Delete (key : Bytes) (q : BinlogQueue) : BinlogQueue :=
  { q with batch := q.batch ++ [.delete key] }

end BinlogQueue

namespace Binlogs

def edit (f : BinlogQueue → BinlogQueue) : M Unit := fun w => ((), { w with binlogs := f w.binlogs })

def Put (key value : Bytes) : M Unit := edit (.Put key value)

def Delete (key : Bytes) : M Unit := edit (.Delete key)

def addLog (type cmd : Byte) (key : Bytes) : M Unit := edit (.addLog type cmd key)

def commit : M Bool := fun w =>
  let (ok, w) := LevelDB.Write w.binlogs.batch w
  if ok then
    (true, { w with binlogs := { w.binlogs with lastSeq := w.binlogs.tranSeq, tranSeq := 0 } })
  else (false, w)

/-- Up to `count` deletions from `start` on, and where the next batch starts. -/
def delBatch (last : UInt64) : ℕ → UInt64 → List BatchOp × UInt64
  | 0, start => ([], start)
  | count + 1, start =>
    if start ≤ last then
      let (batch, next) := delBatch last count (start + 1)
      (.delete (Keys.encodeSeqKey start) :: batch, next)
    else ([], start)

def delRangeFrom (last : UInt64) : ℕ → UInt64 → M Int
  | 0, _ => return 0
  | fuel + 1, start =>
    if start ≤ last then do
      let (batch, next) := delBatch last 1000 start
      if ← LevelDB.Write batch then delRangeFrom last fuel next else return -1
    else return 0

/-- Deletes the records numbered `start` to `last`, both included, a thousand at a time. -/
def delRange (start last : UInt64) : M Int :=
  delRangeFrom last (last.toNat + 1 - start.toNat) start

def flush : M Int := do
  let q := (← MonadState.get).binlogs
  delRange q.minSeq q.lastSeq

/-- The scope of a `Transaction` object: begin, the body, rollback. -/
def transaction {α : Type} (body : M α) : M α := fun w =>
  let (r, w) := body { w with binlogs := w.binlogs.begin }
  (r, { w with binlogs := w.binlogs.rollback })

end Binlogs

namespace SSDBImpl

def fresh (enabled : Bool) (capacity : Int32) : SSDBImpl :=
  ⟨.empty, ⟨0, 0, 0, capacity, [], enabled⟩, .none⟩

end SSDBImpl
