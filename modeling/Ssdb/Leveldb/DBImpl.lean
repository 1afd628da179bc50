import Ssdb.Leveldb.Compaction
import Ssdb.Library.Trace

structure DBImpl where
  mem : MemTable
  imm : Option MemTable
  versions : VersionSet
  /-- The numbers of the snapshots, the oldest first. -/
  snapshots : List UInt64
  /-- What the writer at the front has put into the memtable and not yet numbered for readers. -/
  inserted : List BatchOp
  /-- The compaction that is worked on while the mutex is free, and whether it was asked for. -/
  compacting : Option (CompactionState × Bool)

namespace DBImpl

def open_ (next_file_number : ℕ) : DBImpl where
  mem := OrdMap.empty
  imm := none
  versions := ⟨fun _ => [], fun _ => none, next_file_number, 0⟩
  snapshots := []
  inserted := []
  compacting := none

/-- What happens in the store, each while the mutex is held, in whatever order. -/
inductive Event where
  | insert (groups : List (List BatchOp))
  | publish
  | switchMemTable
  | compactMemTable
  | getSnapshot
  | releaseSnapshot (number : UInt64)
  | backgroundCompaction (trigger : Trigger)
  | turn
  | install

variable (o : DBOptions) (s : DBImpl)

/-- `Write`, up to where the mutex is taken again: the batches of the writers that wait go in together. -/
def insert (groups : List (List BatchOp)) : DBImpl :=
  if s.inserted = [] then
    let updates := WriteBatch.logged (s.versions.last_sequence + 1) groups
    { s with
      mem := (updates.insertInto s.mem).1
      inserted := groups.flatten }
  else s

/-- `SetLastSequence`, at the end of `Write`. -/
def publish : DBImpl :=
  { s with
    versions := { s.versions with
      last_sequence := s.versions.last_sequence + (WriteBatch.ofOps s.inserted).count.toInt64.toUInt64 }
    inserted := [] }

/-- The last branch of `MakeRoomForWrite`: a new log, and a new memtable. -/
def switchMemTable : DBImpl :=
  if s.imm = none ∧ s.inserted = [] then
    { s with imm := some s.mem, mem := OrdMap.empty, versions := s.versions.newFileNumber.2 }
  else s

/-- `WriteLevel0Table`: the file of a memtable and its level, if the memtable holds anything. -/
def level0Table (imm : MemTable) : Option (ℕ × FileMetaData) :=
  (FileMetaData.build s.versions.newFileNumber.1 (o.finished_size imm) imm).map fun f =>
    (s.versions.current.pickLevelForMemTableOutput o f.smallest.user_key f.largest.user_key, f)

def compactMemTable : DBImpl :=
  match s.imm with
  | none => s
  | some imm =>
    let edit := (s.level0Table o imm).elim VersionEdit.new fun out => VersionEdit.new.addFile out.1 out.2
    { s with imm := none, versions := s.versions.newFileNumber.2.logAndApply edit }

def getSnapshot : DBImpl := { s with snapshots := s.snapshots ++ [s.versions.last_sequence] }

def releaseSnapshot (number : UInt64) : DBImpl := { s with snapshots := s.snapshots.erase number }

def isTrivialMove (c : Compaction) : Bool :=
  c.inputs0.length = 1 ∧ c.inputs1.length = 0 ∧
    totalFileSize c.grandparents ≤ o.maxGrandParentOverlapBytes

def smallestSnapshot : UInt64 := s.snapshots.head?.getD s.versions.last_sequence

/-- `BackgroundCompaction`, up to where the mutex is released. -/
def backgroundCompaction (trigger : Trigger) : DBImpl :=
  if s.compacting.isSome then s
  else if s.imm.isSome then s.compactMemTable o
  else
    match s.versions.pickCompaction o trigger with
    | none => s
    | some (c, versions) =>
      if trigger.automatic ∧ isTrivialMove o c then
        let edit := c.inputs0.foldl
          (fun edit f => (edit.deleteFile c.level f.number).addFile (c.level + 1) f) c.edit
        { s with versions := versions.logAndApply edit }
      else
        { s with
          versions
          compacting := some (CompactionState.new c s.smallestSnapshot, !trigger.automatic) }

def turn : DBImpl :=
  match s.compacting with
  | none => s
  | some (c, is_manual) =>
    let turned := c.turn o s.versions.next_file_number
    { s with
      versions := { s.versions with next_file_number := turned.2 }
      compacting := some (turned.1, is_manual) }

/-- `AddInputDeletions` and the outputs. -/
def results (c : CompactionState) : VersionEdit :=
  let level := c.compaction.level
  let edit := c.compaction.inputs0.foldl (fun edit f => edit.deleteFile level f.number) c.compaction.edit
  let edit := c.compaction.inputs1.foldl (fun edit f => edit.deleteFile (level + 1) f.number) edit
  c.outputs.foldl (fun edit f => edit.addFile (level + 1) f) edit

/-- `InstallCompactionResults`, once the input is at its end. -/
def install : DBImpl :=
  match s.compacting with
  | none => s
  | some (c, _) =>
    if c.input = [] then
      { s with
        versions := s.versions.logAndApply (results (c.finishCompactionOutputFile o))
        compacting := none }
    else s

def step : Event → DBImpl → DBImpl
  | .insert groups, s => s.insert groups
  | .publish, s => s.publish
  | .switchMemTable, s => s.switchMemTable
  | .compactMemTable, s => s.compactMemTable o
  | .getSnapshot, s => s.getSnapshot
  | .releaseSnapshot number, s => s.releaseSnapshot number
  | .backgroundCompaction trigger, s => s.backgroundCompaction o trigger
  | .turn, s => s.turn o
  | .install, s => s.install o

def reply (key : Bytes) : SaverState → Except (String × Bytes) (Option Bytes)
  | .kFound value => .ok (some value)
  | .kNotFound => .ok none
  | .kDeleted => .ok none
  | .kCorrupt => .error ("corrupted key for ", key)

def get (snapshot : Option UInt64) (key : Bytes) : Except (String × Bytes) (Option Bytes) :=
  let number := snapshot.getD s.versions.last_sequence
  match s.mem.get key number with
  | some found => .ok found
  | none =>
    match s.imm.bind fun imm => imm.get key number with
    | some found => .ok found
    | none => reply key (s.versions.current.get key number)

end DBImpl

/-- What the users of the store have been told: the records as they are, those that are being
written, and those that each snapshot is to show. -/
structure Told where
  last : UInt64
  current : OrdMap Bytes Bytes
  written : List BatchOp
  held : List (UInt64 × OrdMap Bytes Bytes)

namespace Told

def start : Told := ⟨0, OrdMap.empty, [], []⟩

def step : DBImpl.Event → Told → Told
  | .insert groups, t => if t.written = [] then { t with written := groups.flatten } else t
  | .publish, t =>
    { t with
      last := t.last + UInt64.ofNat t.written.length
      current := t.written.foldl BatchOp.apply t.current
      written := [] }
  | .getSnapshot, t => { t with held := t.held ++ [(t.last, t.current)] }
  | .releaseSnapshot number, t => { t with held := t.held.eraseP fun p => p.1 = number }
  | _, t => t

end Told

namespace InternalKey

theorem lt_of_sequence {a b : InternalKey} (hkey : a.user_key = b.user_key) (h : b.sequence < a.sequence) :
    a < b := by
  refine lt_iff.mpr (.inr ⟨hkey, UInt64.lt_iff_toNat_lt.mpr ?_⟩)
  rw [sequence, sequence] at h
  omega

theorem reading_of_le {q : UInt64} {e : InternalKey × Bytes} (ht : e.1.parse ≠ none)
    (hq : e.1.sequence ≤ q.toNat) : reading q e ≠ none := by
  obtain ⟨p, hp⟩ := Option.ne_none_iff_exists'.mp ht
  have hle : p.sequence ≤ q := UInt64.le_iff_toNat_le.mpr (sequence_parse hp ▸ hq)
  cases htype : p.type <;> simp [reading, hp, hle, htype]

theorem reading_deletion {q : UInt64} {e : InternalKey × Bytes}
    (ht : e.1.parse.map ParsedInternalKey.type = some .kTypeDeletion) (hq : e.1.sequence ≤ q.toNat) :
    reading q e = some none := by
  obtain ⟨p, hp, htype⟩ := Option.map_eq_some_iff.mp ht
  have hle : p.sequence ≤ q := UInt64.le_iff_toNat_le.mpr (sequence_parse hp ▸ hq)
  simp [reading, hp, hle, htype]

end InternalKey
