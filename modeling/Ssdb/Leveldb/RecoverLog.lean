import Ssdb.Leveldb.LogRecovery
import Ssdb.Leveldb.MemTable
import Ssdb.Library.Union

/-- What `RecoverLogFile` has read: the memtable it fills, those it wrote as tables, latest first,
and the greatest number seen. -/
structure Recovery where
  mem : Option MemTable
  tables : List MemTable
  max_sequence : UInt64
  status : Option String

namespace Recovery
variable (full : MemTable → Bool) (paranoid : Bool)

def corruption (reason : Option String) (s : Recovery) : Recovery :=
  if paranoid then { s with status := s.status.or reason } else s

def reported (r : Log.Reader) (s : Recovery) : Recovery :=
  s.corruption paranoid (r.reports.getLast?.map Prod.snd)

def addRecord (record : Bytes) (s : Recovery) : Recovery × Bool :=
  if record.length < 12 then (s.corruption paranoid (some "log record too small"), true)
  else
    let batch : WriteBatch := ⟨record⟩
    let inserted := batch.insertInto (s.mem.getD OrdMap.empty)
    let s := { s with mem := some inserted.1 }
    if paranoid = true ∧ inserted.2 ≠ none then ({ s with status := inserted.2 }, false)
    else
      let last_seq := batch.sequence + batch.count.toInt64.toUInt64 - 1
      let s := { s with max_sequence := if last_seq > s.max_sequence then last_seq else s.max_sequence }
      if full inserted.1 then ({ s with mem := none, tables := inserted.1 :: s.tables }, true)
      else (s, true)

def loop : ℕ → Log.Reader → Recovery → Recovery
  | 0, _, s => s
  | n + 1, r, s =>
    match r.readRecord with
    | (none, r) => s.reported paranoid r
    | (some record, r) =>
      let s := s.reported paranoid r
      if s.status ≠ none then s
      else
        let added := s.addRecord full paranoid record
        if added.2 then loop n r added.1 else added.1

def finish (s : Recovery) : Recovery :=
  match s.mem with
  | none => s
  | some mem => if s.status = none then { s with mem := none, tables := mem :: s.tables } else s

/-- `RecoverLogFile`; `full` says when a memtable exceeds the write buffer. -/
def recoverLogFile (file : Bytes) (max_sequence : UInt64) : Recovery :=
  (loop full paranoid (file.length + 1) (Log.Reader.new file true 0) ⟨none, [], max_sequence, none⟩).finish

def content (base : MemTable) (s : Recovery) : MemTable :=
  (s.tables.foldr (fun table older => OrdMap.union older table) base).union (s.mem.getD OrdMap.empty)

variable {full paranoid} {base : MemTable} {s : Recovery}

theorem content_finish : s.finish.content base = s.content base := by
  obtain ⟨mem, tables, max_sequence, status⟩ := s
  rw [finish]
  cases mem with
  | none => rfl
  | some mem =>
    dsimp only
    split_ifs <;> rfl

end Recovery

namespace MemTable

theorem insertOps_append (s : UInt64) (ops more : List BatchOp) (t : MemTable) :
    insertOps s (ops ++ more) t = insertOps (s + UInt64.ofNat ops.length) more (insertOps s ops t) := by
  induction ops generalizing s t with
  | nil => simp [insertOps]
  | cons op ops ih =>
    have hadd : s + 1 + UInt64.ofNat ops.length = s + UInt64.ofNat (ops.length + 1) := by
      rw [UInt64.ofNat_add, UInt64.add_assoc, UInt64.add_comm 1]
      rfl
    rw [List.cons_append, insertOps, ih, insertOps, List.length_cons, hadd]

theorem union_insertOps (s : UInt64) {ops : List BatchOp} (h : ∀ op ∈ ops, op.Storable) (older t : MemTable) :
    OrdMap.union older (insertOps s ops t) = insertOps s ops (OrdMap.union older t) := by
  induction ops generalizing s t with
  | nil => rfl
  | cons op ops ih =>
    obtain ⟨hop, hrest⟩ := List.forall_mem_cons.mp h
    rw [insertOps, ih _ hrest, insertOps, addOp_eq hop, addOp_eq hop, OrdMap.union_insert]

end MemTable

namespace Recovery
variable {full : MemTable → Bool} {paranoid : Bool} {base : MemTable} {s : Recovery} {last : UInt64}

def logOf : UInt64 → List (List (List BatchOp)) → List Bytes
  | _, [] => []
  | last, groups :: writes =>
    (WriteBatch.logged (last + 1) groups).rep ::
      logOf (last + UInt64.ofNat groups.flatten.length) writes

variable (last) in
theorem last_seq_logged {groups : List (List BatchOp)} (h : WriteBatch.Fits groups) :
    (WriteBatch.logged (last + 1) groups).sequence +
      (WriteBatch.logged (last + 1) groups).count.toInt64.toUInt64 - 1 =
        last + UInt64.ofNat groups.flatten.length := by
  have hcount := WriteBatch.count_toUInt64 h.2
  rw [WriteBatch.logged_eq, WriteBatch.sequence_layout, WriteBatch.count_layout, hcount]
  grind

variable (full paranoid base last) in
theorem addRecord_logged {groups : List (List BatchOp)} (h : WriteBatch.Fits groups) (hs : s.status = none) :
    (s.addRecord full paranoid (WriteBatch.logged (last + 1) groups).rep).2 = true ∧
      (s.addRecord full paranoid (WriteBatch.logged (last + 1) groups).rep).1.status = none ∧
      (s.addRecord full paranoid (WriteBatch.logged (last + 1) groups).rep).1.content base =
        MemTable.insertOps (last + 1) groups.flatten (s.content base) ∧
      (s.addRecord full paranoid (WriteBatch.logged (last + 1) groups).rep).1.max_sequence =
        if last + UInt64.ofNat groups.flatten.length > s.max_sequence then
          last + UInt64.ofNat groups.flatten.length else s.max_sequence := by
  have hlength : ¬ (WriteBatch.logged (last + 1) groups).rep.length < 12 := by
    rw [WriteBatch.logged_eq, WriteBatch.layout_length, WriteBatch.kHeader]
    omega
  have hinsert := WriteBatch.insertInto_logged h (last + 1) (s.mem.getD OrdMap.empty)
  have hlast := last_seq_logged last h
  have hcontent := MemTable.union_insertOps (last + 1) h.1
    (s.tables.foldr (fun table older => OrdMap.union older table) base) (s.mem.getD OrdMap.empty)
  rw [addRecord, if_neg hlength]
  dsimp only
  rw [hinsert, hlast, if_neg (by simp)]
  cases full (MemTable.insertOps (last + 1) groups.flatten (s.mem.getD OrdMap.empty)) with
  | true => exact ⟨rfl, hs, hcontent, rfl⟩
  | false => exact ⟨rfl, hs, hcontent, rfl⟩

def updates (writes : List (List (List BatchOp))) : List BatchOp := writes.flatten.flatten

theorem updates_cons (groups : List (List BatchOp)) (writes : List (List (List BatchOp))) :
    updates (groups :: writes) = groups.flatten ++ updates writes := by
  rw [updates, List.flatten_cons, List.flatten_append, updates]

theorem updates_append (writes more : List (List (List BatchOp))) :
    updates (writes ++ more) = updates writes ++ updates more := by
  simp [updates]

theorem reported_clean {r : Log.Reader} (h : r.reports = []) (hs : s.status = none) :
    s.reported paranoid r = s := by
  obtain ⟨mem, tables, max_sequence, status⟩ := s
  obtain rfl : status = none := hs
  rw [reported, h, corruption]
  cases paranoid <;> rfl

variable (full paranoid base) in
theorem loop_logged {writes : List (List (List BatchOp))} {r : Log.Reader} {o m n : ℕ}
    (hfits : ∀ groups ∈ writes, WriteBatch.Fits groups) (ho : o ≤ Log.kBlockSize)
    (h : Log.At r o ((Log.Writer.addRecords ⟨[], o⟩ (logOf last writes)).dest.take m))
    (hn : ((Log.Writer.addRecords ⟨[], o⟩ (logOf last writes)).dest.take m).length < n)
    (hs : s.status = none) (hrep : r.reports = []) (hmax : s.max_sequence.toNat ≤ last.toNat)
    (hroom : last.toNat + (updates writes).length ≤ 2 ^ 56 - 1) :
    ∃ k ≤ writes.length, ∃ s', loop full paranoid n r s = s' ∧ s'.status = none ∧
      s'.content base = MemTable.insertOps (last + 1) (updates (writes.take k)) (s.content base) ∧
      s.max_sequence.toNat ≤ s'.max_sequence.toNat ∧
      max last.toNat s'.max_sequence.toNat = last.toNat + (updates (writes.take k)).length ∧
      (Log.Writer.addRecords ⟨[], o⟩ ((logOf last writes).take k)).dest.length ≤ m ∧
      ∀ l, k < l → l ≤ writes.length →
        m < (Log.Writer.addRecords ⟨[], o⟩ ((logOf last writes).take l)).dest.length := by
  induction writes generalizing r o m n s last with
  | nil =>
    obtain ⟨n, rfl⟩ : ∃ n', n = n' + 1 := ⟨n - 1, by omega⟩
    have hend : Log.At r o ((Log.Writer.addRecord ⟨[], o⟩ []).dest.take 0) := by
      simpa [logOf, Log.Writer.addRecords] using h
    obtain ⟨r', hread, hrep'⟩ := hend.readRecord_cut ho (Log.Writer.addRecord_pos [] o)
    refine ⟨0, le_rfl, s, ?_, hs, rfl, le_rfl, ?_, Nat.zero_le m, fun l hl hle => ?_⟩
    · rw [loop, hread]
      exact reported_clean (hrep'.trans hrep) hs
    · rw [max_eq_left hmax]
      rfl
    · exact absurd (hl.trans_le hle) (Nat.not_lt_zero 0)
  | cons groups writes ih =>
    obtain ⟨n, rfl⟩ : ∃ n', n = n' + 1 := ⟨n - 1, by omega⟩
    rw [logOf, Log.Writer.addRecords_cons] at h hn
    rw [logOf]
    generalize hrecord : (WriteBatch.logged (last + 1) groups).rep = record at h hn ⊢
    rcases lt_or_ge m (Log.Writer.addRecord ⟨[], o⟩ record).dest.length with hlt | hge
    · rw [List.take_append_of_le_length hlt.le] at h
      obtain ⟨r', hread, hrep'⟩ := h.readRecord_cut ho hlt
      refine ⟨0, Nat.zero_le _, s, ?_, hs, rfl, le_rfl, ?_, Nat.zero_le m, fun l hl _ => ?_⟩
      · rw [loop, hread]
        exact reported_clean (hrep'.trans hrep) hs
      · rw [max_eq_left hmax]
        rfl
      · obtain ⟨l, rfl⟩ : ∃ l', l = l' + 1 := ⟨l - 1, by omega⟩
        rw [List.take_succ_cons, Log.Writer.addRecords_cons, List.length_append]
        omega
    · rw [List.take_append, List.take_of_length_le hge] at h hn
      obtain ⟨r', hread, hat, hle, hrep'⟩ := h.readRecord ho
      have hpos := Log.Writer.addRecord_pos record o
      rw [List.length_append] at hn
      rw [updates_cons, List.length_append] at hroom
      have hfit := hfits groups (by simp)
      obtain ⟨hgo, hstatus, hcontent, hlast⟩ :=
        addRecord_logged full paranoid base last hfit hs
      rw [hrecord] at hgo hstatus hcontent hlast
      have hcount : (UInt64.ofNat groups.flatten.length).toNat = groups.flatten.length :=
        UInt64.toNat_ofNat_of_lt' (by have hlt := hfit.2; change _ < 2 ^ 64; omega)
      have hnext : (last + UInt64.ofNat groups.flatten.length).toNat =
          last.toNat + groups.flatten.length := by
        rw [UInt64.toNat_add, hcount]
        omega
      have hseen : (s.addRecord full paranoid record).1.max_sequence.toNat =
          (last + UInt64.ofNat groups.flatten.length).toNat := by
        rw [hlast]
        split_ifs with hgt
        · rfl
        · have hge := UInt64.le_iff_toNat_le.mp (UInt64.not_lt.mp hgt)
          omega
      have hn' : ((Log.Writer.addRecords ⟨[], (Log.Writer.addRecord ⟨[], o⟩ record).blockOffset⟩
          (logOf (last + UInt64.ofNat groups.flatten.length) writes)).dest.take
            (m - (Log.Writer.addRecord ⟨[], o⟩ record).dest.length)).length < n := by omega
      obtain ⟨k, hk, s', hloop, hs', hcontent', hgrown, hmax', hfits', hmore⟩ :=
        ih (fun g hg => hfits g (by simp [hg])) hle hat hn' hstatus (hrep'.trans hrep) hseen.le
          (by omega)
      refine ⟨k + 1, Nat.succ_le_succ hk, s', ?_, hs', ?_, by omega, ?_, ?_, fun l hl hlen => ?_⟩
      · rw [loop, hread]
        dsimp only
        rw [reported_clean (hrep'.trans hrep) hs, if_neg (by simp [hs]), hgo, if_pos rfl]
        exact hloop
      · have hstep : last + 1 + UInt64.ofNat groups.flatten.length =
            last + UInt64.ofNat groups.flatten.length + 1 := by grind
        rw [hcontent', hcontent, List.take_succ_cons, updates_cons, MemTable.insertOps_append, hstep]
      · rw [List.take_succ_cons, updates_cons, List.length_append]
        omega
      · rw [List.take_succ_cons, Log.Writer.addRecords_cons, List.length_append]
        omega
      · obtain ⟨l, rfl⟩ : ∃ l', l = l' + 1 := ⟨l - 1, by omega⟩
        have hnext := hmore l (by omega) (by simpa using hlen)
        rw [List.take_succ_cons, Log.Writer.addRecords_cons, List.length_append]
        omega

def written (db : LevelDB) (writes : List (List (List BatchOp))) : LevelDB :=
  writes.foldl (fun db groups => db.write groups.flatten) db

theorem written_eq (db : LevelDB) (writes : List (List (List BatchOp))) :
    (written db writes).table = (updates writes).foldl BatchOp.apply db.table ∧
      (written db writes).sequence = db.sequence + (updates writes).length := by
  induction writes generalizing db with
  | nil => exact ⟨rfl, rfl⟩
  | cons groups writes ih =>
    obtain ⟨htable, hsequence⟩ := ih (db.write groups.flatten)
    rw [updates_cons, List.foldl_append, List.length_append, ← Nat.add_assoc]
    exact ⟨htable, hsequence⟩

/-- Whatever byte a crash cuts the log at, recovery brings the store back to what it was after the
last write whose record is whole: its records, its last sequence number and its older snapshots. -/
theorem crash_recovers (full : MemTable → Bool) (paranoid : Bool) {db : LevelDB}
    {base : MemTable} {last max_sequence : UInt64} {writes : List (List (List BatchOp))}
    (hbase : MemTable.Upto last base) (htable : db.table = snapshotView last base)
    (hsequence : db.sequence = last.toNat) (hmax : max_sequence ≤ last)
    (hfits : ∀ groups ∈ writes, WriteBatch.Fits groups)
    (hroom : (written db writes).sequence ≤ kMaxSequenceNumber) (m : ℕ) :
    ∃ k ≤ writes.length,
      let s := recoverLogFile full paranoid
        (((Log.Writer.new []).addRecords (logOf last writes)).dest.take m) max_sequence
      s.status = none ∧ s.mem = none ∧
      max db.sequence s.max_sequence.toNat = (written db (writes.take k)).sequence ∧
      (∀ q : UInt64, (written db (writes.take k)).sequence ≤ q.toNat →
        snapshotView q (s.content base) = (written db (writes.take k)).table) ∧
      (∀ q ≤ last, snapshotView q (s.content base) = snapshotView q base) ∧
      ((Log.Writer.new []).addRecords ((logOf last writes).take k)).dest.length ≤ m ∧
      ∀ l, k < l → l ≤ writes.length →
        m < ((Log.Writer.new []).addRecords ((logOf last writes).take l)).dest.length := by
  have hfile (records : List Bytes) : ((Log.Writer.new []).addRecords records).dest =
      (Log.Writer.addRecords ⟨[], Log.kBlockSize⟩ records).dest :=
    Log.Writer.addRecords_boundary [] records
  have hall := written_eq db writes
  have hlimit : kMaxSequenceNumber = 2 ^ 56 - 1 := rfl
  generalize hcut : ((Log.Writer.new []).addRecords (logOf last writes)).dest.take m = file
  have hat : Log.At (Log.Reader.new file true 0) Log.kBlockSize
      ((Log.Writer.addRecords ⟨[], Log.kBlockSize⟩ (logOf last writes)).dest.take m) := by
    rw [← hfile, hcut]
    exact Log.At.new file true
  have hlength : ((Log.Writer.addRecords ⟨[], Log.kBlockSize⟩ (logOf last writes)).dest.take m).length <
      file.length + 1 := by
    rw [← hfile, hcut]
    omega
  obtain ⟨k, hk, s, hloop, hs, hcontent, -, hseen, hwhole, hmore⟩ :=
    loop_logged full paranoid base (s := ⟨none, [], max_sequence, none⟩) hfits le_rfl hat hlength rfl rfl
      (UInt64.le_iff_toNat_le.mp hmax) (by omega)
  have hrecovered : recoverLogFile full paranoid file max_sequence = s.finish := by
    rw [recoverLogFile, hloop]
  have hfinished : s.finish.status = none ∧ s.finish.mem = none ∧
      s.finish.max_sequence = s.max_sequence := by
    rw [finish]
    cases hmem : s.mem with
    | none => exact ⟨hs, hmem, rfl⟩
    | some mem =>
      dsimp only
      rw [if_pos hs]
      exact ⟨hs, rfl, rfl⟩
  have hprefix := written_eq db (writes.take k)
  have htake : (updates (writes.take k)).length ≤ (updates writes).length := by
    have happend := updates_append (writes.take k) (writes.drop k)
    rw [List.take_append_drop] at happend
    simp [happend]
  have hstorable : ∀ op ∈ updates (writes.take k), op.Storable := by
    intro op hop
    obtain ⟨batch, hbatch, hop⟩ := List.mem_flatten.mp hop
    obtain ⟨groups, hgroups, hbatch⟩ := List.mem_flatten.mp hbatch
    exact (hfits groups (List.mem_of_mem_take hgroups)).1 op (List.mem_flatten.mpr ⟨batch, hbatch, hop⟩)
  obtain ⟨hbelow, habove⟩ := MemTable.insertOps_spec hstorable hbase (by omega)
  have hall' : s.finish.content base = MemTable.insertOps (last + 1) (updates (writes.take k)) base := by
    rw [content_finish, hcontent]
    rfl
  refine ⟨k, hk, ?_⟩
  rw [hrecovered]
  refine ⟨hfinished.1, hfinished.2.1, ?_, fun q hq => ?_, fun q hq => ?_, ?_, fun l hl hle => ?_⟩
  · rw [hfinished.2.2]
    omega
  · rw [hall', habove q (by omega), hprefix.1, htable]
  · rw [hall', hbelow q (UInt64.le_iff_toNat_le.mp hq)]
  · rw [hfile]
    exact hwhole
  · rw [hfile]
    exact hmore l hl hle

theorem crash_recovers_two :
    let writes := [[[BatchOp.put [97] [1], .put [98] [2]]], [[.delete [97]], [.put [98] [3]]]]
    ∃ k ≤ 2,
      let s := recoverLogFile (fun _ => false) true
        (((Log.Writer.new []).addRecords (logOf 0 writes)).dest.take 40) 0
      s.status = none ∧ s.mem = none ∧
        max 0 s.max_sequence.toNat = (written LevelDB.empty (writes.take k)).sequence := by
  intro writes
  have hbase : MemTable.Upto 0 OrdMap.empty := fun _ he => absurd he (by simp [OrdMap.empty])
  have hfits : ∀ groups ∈ writes, WriteBatch.Fits groups := by decide
  have hroom : (written LevelDB.empty writes).sequence ≤ kMaxSequenceNumber := by decide
  obtain ⟨k, hk, hstatus, hmem, hsequence, -⟩ := crash_recovers (fun _ => false) true hbase rfl rfl
    (UInt64.le_refl 0) hfits hroom 40
  exact ⟨k, hk, hstatus, hmem, hsequence⟩

end Recovery
