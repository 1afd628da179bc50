import Ssdb.Library.Cursor
import Ssdb.Util.Bytes

inductive BatchOp where
  | put (key value : Bytes)
  | delete (key : Bytes)
deriving DecidableEq, Repr

def BatchOp.apply (t : OrdMap Bytes Bytes) : BatchOp → OrdMap Bytes Bytes
  | .put key value => t.insert key value
  | .delete key => t.erase key

theorem BatchOp.size_apply (t : OrdMap Bytes Bytes) (op : BatchOp) :
    (op.apply t).size ≤ t.size + 1 := by
  cases op with
  | put key value =>
    rw [BatchOp.apply, OrdMap.size_insert]
    split_ifs <;> omega
  | delete key =>
    rw [BatchOp.apply, OrdMap.size_erase]
    split_ifs <;> omega

structure LevelDB where
  table : OrdMap Bytes Bytes
  sequence : ℕ
  size_le : table.size ≤ sequence

/-- leveldb keeps a sequence number in 56 bits (`dbformat.h`). -/
def kMaxSequenceNumber : ℕ := 2 ^ 56 - 1

namespace LevelDB

def empty : LevelDB := ⟨OrdMap.empty, 0, le_rfl⟩

theorem size_foldl (batch : List BatchOp) (t : OrdMap Bytes Bytes) :
    (batch.foldl BatchOp.apply t).size ≤ t.size + batch.length := by
  induction batch generalizing t with
  | nil => simp
  | cons op batch ih =>
    have h1 := ih (op.apply t)
    have h2 := op.size_apply t
    simp only [List.foldl_cons, List.length_cons]
    omega

def write (db : LevelDB) (batch : List BatchOp) : LevelDB :=
  ⟨batch.foldl BatchOp.apply db.table, db.sequence + batch.length,
    (size_foldl batch db.table).trans (Nat.add_le_add_right db.size_le _)⟩

end LevelDB

/-- How the coming leveldb calls end: `true` stands for a call that fails, and a call past the
end of its list succeeds. -/
structure Faults where
  get : List Bool
  write : List Bool
deriving DecidableEq, Repr

def Faults.none : Faults := ⟨[], []⟩

inductive Fetched where
  | found (value : Bytes)
  | notFound
  | failed
deriving DecidableEq, Repr

structure BinlogQueue where
  minSeq : UInt64
  lastSeq : UInt64
  tranSeq : UInt64
  capacity : Int32
  batch : List BatchOp
  enabled : Bool

structure SSDBImpl where
  ldb : LevelDB
  binlogs : BinlogQueue
  faults : Faults

abbrev M := StateM SSDBImpl

namespace LevelDB

def fetch (db : LevelDB) (key : Bytes) : Fetched :=
  match db.table.get key with
  | some value => .found value
  | none => .notFound

def Get (key : Bytes) : M Fetched := fun w =>
  ((if w.faults.get.head? = some true then .failed else w.ldb.fetch key),
    { w with faults := { w.faults with get := w.faults.get.tail } })

/-- `leveldb::DB::Write`; the result is `Status::ok()`. -/
def Write (batch : List BatchOp) : M Bool := fun w =>
  if w.faults.write.head? = some true then
    (false, { w with faults := { w.faults with write := w.faults.write.tail } })
  else
    (true, { w with
      ldb := w.ldb.write batch
      faults := { w.faults with write := w.faults.write.tail } })

end LevelDB
