import Ssdb.Store.Recovery

structure Config where
  getNum : String → Int32
  getStr : String → Bytes

namespace Strings

def tolower (c : Byte) : Byte := if charByte 'A' ≤ c ∧ c ≤ charByte 'Z' then c + 32 else c

def strtolower (str : Bytes) : Bytes := str.map tolower

end Strings

structure Options where
  cacheSize : UInt64
  maxOpenFiles : UInt64
  writeBufferSize : UInt64
  blockSize : UInt64
  compactionSpeed : Int32
  compression : Bytes
  binlog : Bool
  binlogCapacity : UInt64
deriving DecidableEq, Repr

namespace Options
open BinlogQueue Strings

/-- It depends on whether the program is compiled with `NDEBUG`. -/
def LOG_QUEUE_SIZE (ndebug : Bool) : Int32 := if ndebug then 20 * 1000 * 1000 else 10000

/-- The value, or a default for what the source writes as `<= 0` of a `size_t`. -/
def orDefault (n default : UInt64) : UInt64 := if n ≤ 0 then default else n

def load (ndebug : Bool) (conf : Config) : Options :=
  let cacheSize := orDefault (widen (conf.getNum "leveldb.cache_size")) 16
  let maxOpenFiles := widen (conf.getNum "leveldb.max_open_files")
  let compression := strtolower (conf.getStr "leveldb.compression")
  { cacheSize := cacheSize
    maxOpenFiles :=
      if maxOpenFiles ≤ 0 then
        let n := cacheSize / 1024 * 300
        let n := if n < 500 then 500 else n
        if n > 1000 then 1000 else n
      else maxOpenFiles
    writeBufferSize := orDefault (widen (conf.getNum "leveldb.write_buffer_size")) 16
    blockSize := orDefault (widen (conf.getNum "leveldb.block_size")) 32
    compactionSpeed := conf.getNum "leveldb.compaction_speed"
    compression := if compression ≠ asBytes "no" then asBytes "yes" else compression
    binlog := strtolower (conf.getStr "replication.binlog") = asBytes "yes"
    binlogCapacity := orDefault (widen (conf.getNum "replication.binlog.capacity"))
      (widen (LOG_QUEUE_SIZE ndebug)) }

def narrow (n : UInt64) : Int32 := n.toInt64.toInt32

theorem narrow_widen (n : Int32) : narrow (widen n) = n := by
  rw [narrow, widen]
  exact Int32.toInt32_toInt64 n

theorem widen_le_zero_iff (n : Int32) : widen n ≤ 0 ↔ n = 0 := by
  rw [UInt64.le_zero_iff]
  constructor
  · intro h
    rw [← narrow_widen n, h]
    rfl
  · rintro rfl
    rfl

theorem load_capacity (ndebug : Bool) (conf : Config) : narrow (load ndebug conf).binlogCapacity =
    if conf.getNum "replication.binlog.capacity" = 0 then LOG_QUEUE_SIZE ndebug
    else conf.getNum "replication.binlog.capacity" := by
  have hload : (load ndebug conf).binlogCapacity =
      orDefault (widen (conf.getNum "replication.binlog.capacity"))
        (widen (LOG_QUEUE_SIZE ndebug)) := rfl
  rw [hload, orDefault]
  simp only [widen_le_zero_iff]
  split_ifs <;> exact narrow_widen _

end Options

namespace SSDBImpl

/-- `SSDBImpl::open` when leveldb opens the database: a queue over it. -/
def openOn (opt : Options) (ldb : LevelDB) : SSDBImpl :=
  ⟨ldb, .new ldb opt.binlog (Options.narrow opt.binlogCapacity), .none⟩

end SSDBImpl
