import Ssdb.Store.LogSeqs

namespace Binlog

def HEADER_LEN : ℕ := 10

def load (s : Bytes) : Option Bytes := if s.length < HEADER_LEN then none else some s

def seq (buf : Bytes) : UInt64 := Endian.ofMemory (buf.take 8)

def type (buf : Bytes) : Byte := buf.getD 8 0

def cmd (buf : Bytes) : Byte := buf.getD 9 0

def key (buf : Bytes) : Bytes := buf.drop HEADER_LEN

end Binlog

namespace BinlogQueue
open Keys

def widen (n : Int32) : UInt64 := n.toInt64.toUInt64

def lowest (capacity : Int32) (lastSeq : UInt64) : UInt64 :=
  if widen capacity < lastSeq then lastSeq - widen capacity else 0

section find
variable (db : LevelDB)

def logAt (it : Cursor Bytes Bytes) : Int × Bytes :=
  match it.current with
  | none => (0, [])
  | some (key, val) =>
    if decodeSeqKey key ≠ 0 then
      match Binlog.load val with
      | none => (-1, [])
      | some log => (1, log)
    else (0, [])

def get (seq : UInt64) : Int × Bytes :=
  match db.fetch (encodeSeqKey seq) with
  | .found val =>
    match Binlog.load val with
    | none => (0, [])
    | some log => (1, log)
  | _ => (0, [])

def findNext (nextSeq : UInt64) : Int × Bytes :=
  if (get db nextSeq).1 = 1 then get db nextSeq
  else logAt (Cursor.seek db.table (encodeSeqKey nextSeq))

def findLast : Int × Bytes :=
  let it := Cursor.seek db.table (encodeSeqKey 0xffffffffffffffff)
  logAt (if it.valid then it.prev else Cursor.seekToLast db.table)

def new (enabled : Bool) (capacity : Int32) : BinlogQueue :=
  let last := findLast db
  let lastSeq := if last.1 = 1 then Binlog.seq last.2 else 0
  let minSeq := lowest capacity lastSeq
  let next := findNext db minSeq
  { minSeq := if next.1 = 1 then Binlog.seq next.2 else minSeq
    lastSeq := lastSeq
    tranSeq := 0
    capacity := capacity
    batch := []
    enabled := enabled }

end find

end BinlogQueue

namespace Binlogs

def logClean : M Bool := do
  let logs := (← MonadState.get).binlogs
  if logs.lastSeq < logs.minSeq then return false
  else if logs.lastSeq - logs.minSeq < BinlogQueue.widen (logs.capacity + 10000) then return true
  else do
    let start := logs.minSeq
    let stop := logs.lastSeq - BinlogQueue.widen logs.capacity
    let _ ← delRange start stop
    edit fun q => { q with minSeq := stop + 1 }
    return true

end Binlogs

namespace SSDBImpl

def reopened (w : SSDBImpl) : SSDBImpl :=
  { w with binlogs := .new w.ldb w.binlogs.enabled w.binlogs.capacity }

end SSDBImpl

namespace Keys

@[simp] theorem decodeSeqKey_encode (x : UInt64) : decodeSeqKey (encodeSeqKey x) = x := by
  simp [decodeSeqKey, encodeSeqKey]

theorem head_between {x y : UInt64} {key : Bytes} (h1 : encodeSeqKey x ≤ key)
    (h2 : key ≤ encodeSeqKey y) : key.head? = some DataType.SYNCLOG := by
  obtain ⟨k, rfl⟩ := Lexicographic.prefix_of_between (p := [DataType.SYNCLOG]) h1 h2
  rfl

theorem encodeSeqKey_le_iff {x y : UInt64} : encodeSeqKey x ≤ encodeSeqKey y ↔ x ≤ y := by
  rw [← not_lt, encodeSeqKey_lt_iff, UInt64.not_lt]

end Keys

namespace Binlog

theorem load_binlog (x : UInt64) (type cmd : Byte) (k : Bytes) :
    load (Binlog x type cmd k) = some (Binlog x type cmd k) := by
  have hlen : ¬(Binlog x type cmd k).length < HEADER_LEN := by
    simp only [Binlog, HEADER_LEN, List.length_append, Endian.memory_length, List.length_cons]
    omega
  exact if_neg hlen

theorem seq_binlog (x : UInt64) (type cmd : Byte) (k : Bytes) : seq (Binlog x type cmd k) = x := by
  rw [seq, Binlog, List.take_append_of_le_length (by simp), List.take_of_length_le (by simp),
    Endian.ofMemory_memory]

theorem type_binlog (x : UInt64) (t c : Byte) (k : Bytes) : type (Binlog x t c k) = t := by
  rw [type, Binlog, List.getD_eq_getElem?_getD, List.getElem?_append_right (by simp)]
  simp

theorem cmd_binlog (x : UInt64) (t c : Byte) (k : Bytes) : cmd (Binlog x t c k) = c := by
  rw [cmd, Binlog, List.getD_eq_getElem?_getD, List.getElem?_append_right (by simp)]
  simp

theorem key_binlog (x : UInt64) (t c : Byte) (k : Bytes) : key (Binlog x t c k) = k := by
  rw [key, Binlog, List.drop_append, List.drop_of_length_le (by simp [HEADER_LEN])]
  simp [HEADER_LEN]

end Binlog

namespace BinlogQueue
open Keys

variable {db : LevelDB} (hlog : Logbook db.table)
include hlog

def Finds (db : LevelDB) (found : Int × Bytes) (x : UInt64) : Prop :=
  found.1 = 1 ∧ Binlog.seq found.2 = x ∧ db.table.get (encodeSeqKey x) ≠ none

theorem logAt_finds {it : Cursor Bytes Bytes} {key value : Bytes} (hit : it.current = some (key, value))
    (hmem : (key, value) ∈ db.table.entries) (hhead : key.head? = some DataType.SYNCLOG) :
    ∃ x, key = encodeSeqKey x ∧ Finds db (logAt it) x := by
  have hget := (OrdMap.mem_entries_iff _ _ _).mp hmem
  obtain ⟨x, type, cmd, k, hx, rfl, rfl⟩ := hlog key value hget hhead
  have hat : logAt it = (1, Binlog x type cmd k) := by
    simp only [logAt, hit, decodeSeqKey_encode, Binlog.load_binlog]
    rw [if_pos hx]
  refine ⟨x, rfl, ?_, ?_, by simp [hget]⟩
  · rw [hat]
  · rw [hat, Binlog.seq_binlog]

omit hlog in
theorem logAt_none {it : Cursor Bytes Bytes}
    (h : ∀ key value, it.current = some (key, value) → key.head? ≠ some DataType.SYNCLOG) :
    (logAt it).1 = 0 := by
  rw [logAt]
  cases hit : it.current with
  | none => rfl
  | some e =>
    have hzero : decodeSeqKey e.1 = 0 := if_neg fun h' => h e.1 e.2 hit h'.2
    simp only [hzero, ne_eq, not_true_eq_false, if_false]

theorem findLast_spec (hroom : ∀ n ∈ logSeqs db.table, n < 2 ^ 64 - 1) :
    (∃ x, Finds db (findLast db) x ∧ ∀ n ∈ logSeqs db.table, n ≤ x.toNat) ∨
      logSeqs db.table = ∅ ∧ (findLast db).1 = 0 := by
  have hbelow {x : UInt64} (hx : db.table.get (encodeSeqKey x) ≠ none) :
      encodeSeqKey x < encodeSeqKey 0xffffffffffffffff := by
    have hlt := hroom x.toNat (mem_logSeqs.mpr hx)
    rw [encodeSeqKey_lt_iff, UInt64.lt_iff_toNat_lt]
    exact hlt
  obtain ⟨hsome, hnone⟩ := Cursor.current_below db.table (encodeSeqKey 0xffffffffffffffff)
  rcases em (∃ x, db.table.get (encodeSeqKey x) ≠ none) with ⟨y, hy⟩ | hempty
  · obtain ⟨value, hvalue⟩ := Option.ne_none_iff_exists'.mp hy
    have hymem := (OrdMap.mem_entries_iff _ _ _).mpr hvalue
    left
    cases hit : Cursor.current (if (Cursor.seek db.table (encodeSeqKey 0xffffffffffffffff)).valid then
        (Cursor.seek db.table (encodeSeqKey 0xffffffffffffffff)).prev
      else Cursor.seekToLast db.table) with
    | none => exact absurd (hbelow hy) (not_lt.mpr (hnone hit _ hymem))
    | some e =>
      obtain ⟨hmem, hlt, hmax⟩ := hsome e hit
      have hhead := head_between (hmax _ hymem (hbelow hy)) hlt.le
      obtain ⟨x, hkey, hfinds⟩ := logAt_finds hlog hit hmem hhead
      refine ⟨x, hfinds, ?_⟩
      rintro n ⟨z, rfl, hz⟩
      obtain ⟨value', hvalue'⟩ := Option.ne_none_iff_exists'.mp hz
      have hle := hmax _ ((OrdMap.mem_entries_iff _ _ _).mpr hvalue') (hbelow hz)
      rwa [hkey, encodeSeqKey_le_iff, UInt64.le_iff_toNat_le] at hle
  · right
    refine ⟨Set.eq_empty_iff_forall_notMem.mpr fun n => ?_, logAt_none fun key value hit hhead => ?_⟩
    · rintro ⟨x, -, hx⟩
      exact hempty ⟨x, hx⟩
    · have hmem := (hsome (key, value) hit).1
      obtain ⟨x, -, -, -, hx⟩ := logAt_finds hlog hit hmem hhead
      exact hempty ⟨x, hx⟩

theorem get_finds {x : UInt64} (hx : db.table.get (encodeSeqKey x) ≠ none) : Finds db (get db x) x := by
  obtain ⟨value, hvalue⟩ := Option.ne_none_iff_exists'.mp hx
  obtain ⟨y, type, cmd, k, -, hkey, rfl⟩ := hlog _ value hvalue rfl
  obtain rfl : x = y := encodeSeqKey_inj.mp hkey
  have hget : get db x = (1, Binlog x type cmd k) := by
    simp only [get, LevelDB.fetch, hvalue, Binlog.load_binlog]
  exact ⟨by rw [hget], by rw [hget, Binlog.seq_binlog], hx⟩

omit hlog in
theorem get_none {x : UInt64} (hx : db.table.get (encodeSeqKey x) = none) : (get db x).1 = 0 := by
  simp only [get, LevelDB.fetch, hx]

theorem findNext_spec (seq : UInt64) :
    (∃ x, Finds db (findNext db seq) x ∧ seq ≤ x ∧
      ∀ n ∈ logSeqs db.table, seq.toNat ≤ n → x.toNat ≤ n) ∨
      (∀ n ∈ logSeqs db.table, n < seq.toNat) ∧ (findNext db seq).1 = 0 := by
  obtain ⟨hsome, hnone⟩ := Cursor.current_seek db.table (encodeSeqKey seq)
  cases hget : db.table.get (encodeSeqKey seq) with
  | some value =>
    have hfinds := get_finds hlog (x := seq) (by simp [hget])
    refine .inl ⟨seq, ?_, UInt64.le_refl _, fun n _ hn => hn⟩
    rwa [findNext, if_pos hfinds.1]
  | none =>
    have hskip : findNext db seq = logAt (Cursor.seek db.table (encodeSeqKey seq)) :=
      if_neg (by rw [get_none hget]; decide)
    rw [hskip]
    rcases em (∃ x, seq ≤ x ∧ db.table.get (encodeSeqKey x) ≠ none) with ⟨y, hle, hy⟩ | hempty
    · obtain ⟨value, hvalue⟩ := Option.ne_none_iff_exists'.mp hy
      have hymem := (OrdMap.mem_entries_iff _ _ _).mpr hvalue
      have hyle := encodeSeqKey_le_iff.mpr hle
      left
      cases hit : (Cursor.seek db.table (encodeSeqKey seq)).current with
      | none => exact absurd hyle (not_le.mpr (hnone hit _ hymem))
      | some e =>
        obtain ⟨hmem, hge, hmin⟩ := hsome e hit
        have hhead := head_between hge (hmin _ hymem hyle)
        obtain ⟨x, hkey, hfinds⟩ := logAt_finds hlog hit hmem hhead
        refine ⟨x, hfinds, encodeSeqKey_le_iff.mp (hkey ▸ hge), ?_⟩
        rintro n ⟨z, rfl, hz⟩ hn
        obtain ⟨value', hvalue'⟩ := Option.ne_none_iff_exists'.mp hz
        have hzle := hmin _ ((OrdMap.mem_entries_iff _ _ _).mpr hvalue')
          (encodeSeqKey_le_iff.mpr (UInt64.le_iff_toNat_le.mpr hn))
        rwa [hkey, encodeSeqKey_le_iff, UInt64.le_iff_toNat_le] at hzle
    · right
      refine ⟨?_, logAt_none fun key value hit hhead => ?_⟩
      · rintro n ⟨x, rfl, hx⟩
        rw [← UInt64.lt_iff_toNat_lt, ← UInt64.not_le]
        exact fun hle => hempty ⟨x, hle, hx⟩
      · obtain ⟨hmem, hge, -⟩ := hsome (key, value) hit
        obtain ⟨x, hkey, -, -, hx⟩ := logAt_finds hlog hit hmem hhead
        exact hempty ⟨x, encodeSeqKey_le_iff.mp (hkey ▸ hge), hx⟩

omit hlog in
theorem logAt_stored {it : Cursor Bytes Bytes} (hit : ∀ e, it.current = some e → e ∈ db.table.entries)
    (h : (logAt it).1 = 1) :
    ∃ key, key.head? = some DataType.SYNCLOG ∧ db.table.get key = some (logAt it).2 := by
  rw [logAt] at h ⊢
  cases hcur : it.current with
  | none => simp [hcur] at h
  | some e =>
    obtain ⟨key, value⟩ := e
    have hget := (OrdMap.mem_entries_iff _ _ _).mp (hit (key, value) hcur)
    rcases eq_or_ne (decodeSeqKey key) 0 with hzero | hseq
    · simp [hcur, hzero] at h
    · have hhead : key.head? = some DataType.SYNCLOG := by
        by_contra hne
        exact hseq (if_neg fun h' => hne h'.2)
      refine ⟨key, hhead, ?_⟩
      rw [hget]
      simp only [hcur, if_pos hseq] at h ⊢
      cases hload : Binlog.load value with
      | none => simp [hload] at h
      | some log =>
        rw [Binlog.load] at hload
        split_ifs at hload
        exact hload

omit hlog in
theorem findLast_stored (h : (findLast db).1 = 1) :
    ∃ key, key.head? = some DataType.SYNCLOG ∧ db.table.get key = some (findLast db).2 :=
  logAt_stored (fun e he => ((Cursor.current_below db.table _).1 e he).1) h

omit hlog in
theorem findNext_stored {seq : UInt64} (h : (findNext db seq).1 = 1) :
    ∃ key, key.head? = some DataType.SYNCLOG ∧ db.table.get key = some (findNext db seq).2 := by
  rw [findNext] at h ⊢
  split_ifs at h ⊢
  · refine ⟨encodeSeqKey seq, rfl, ?_⟩
    rw [get, LevelDB.fetch] at h ⊢
    cases hget : db.table.get (encodeSeqKey seq) with
    | none => simp [hget] at h
    | some value =>
      simp only [hget] at h ⊢
      cases hload : Binlog.load value with
      | none => simp [hload] at h
      | some log =>
        rw [Binlog.load] at hload
        split_ifs at hload
        exact hload
  · exact logAt_stored (fun e he => ((Cursor.current_seek db.table _).1 e he).1) h

theorem Finds.value {found : Int × Bytes} {x : UInt64} (h : Finds db found x)
    (hstored : ∃ key, key.head? = some DataType.SYNCLOG ∧ db.table.get key = some found.2) :
    db.table.get (encodeSeqKey x) = some found.2 := by
  obtain ⟨key, hhead, hget⟩ := hstored
  obtain ⟨y, type, cmd, k, -, rfl, hvalue⟩ := hlog key found.2 hget hhead
  have hseq := h.2.1
  rw [hvalue, Binlog.seq_binlog] at hseq
  rw [← hseq]
  exact hget

theorem new_last (hroom : ∀ n ∈ logSeqs db.table, n < 2 ^ 64 - 1) (enabled : Bool) (capacity : Int32) :
    IsGreatest (logSeqs db.table) (new db enabled capacity).lastSeq.toNat ∨
      logSeqs db.table = ∅ ∧ (new db enabled capacity).lastSeq = 0 := by
  rcases findLast_spec hlog hroom with ⟨x, ⟨hret, hseq, hx⟩, hmax⟩ | ⟨hempty, hret⟩
  · have hlast : (new db enabled capacity).lastSeq = x := (if_pos hret).trans hseq
    rw [hlast]
    exact .inl ⟨mem_logSeqs.mpr hx, hmax⟩
  · exact .inr ⟨hempty, if_neg (by rw [hret]; decide)⟩

theorem new_min (enabled : Bool) (capacity : Int32) :
    let q := new db enabled capacity
    IsLeast {n | n ∈ logSeqs db.table ∧ (lowest capacity q.lastSeq).toNat ≤ n} q.minSeq.toNat ∨
      (∀ n ∈ logSeqs db.table, n < (lowest capacity q.lastSeq).toNat) ∧
        q.minSeq = lowest capacity q.lastSeq := by
  intro q
  rcases findNext_spec hlog (lowest capacity q.lastSeq) with
    ⟨x, ⟨hret, hseq, hx⟩, hle, hmin⟩ | ⟨hall, hret⟩
  · have hfirst : q.minSeq = x := (if_pos hret).trans hseq
    rw [hfirst]
    exact .inl ⟨⟨mem_logSeqs.mpr hx, UInt64.le_iff_toNat_le.mp hle⟩, fun n hn => hmin n hn.1 hn.2⟩
  · have hnot : (findNext db (lowest capacity q.lastSeq)).1 ≠ 1 := by
      rw [hret]
      decide
    exact .inr ⟨hall, if_neg hnot⟩

omit hlog in
theorem widen_eq (n : Int32) : 0 ≤ n.toInt ∧ ((widen n).toNat : ℤ) = n.toInt ∨
    n.toInt < 0 ∧ ((widen n).toNat : ℤ) = n.toInt + 2 ^ 64 := by
  have hint : n.toInt64.toInt = n.toInt := Int32.toInt_toInt64 n
  have hrange := Endian.toInt_toUInt64 n.toInt64
  have hlt := n.toInt64.toUInt64.toNat_lt
  rw [widen]
  omega

omit hlog in
theorem widen_toNat {n : Int32} (h : 0 ≤ n.toInt) : (widen n).toNat = n.toInt.toNat := by
  have heq := widen_eq n
  omega

omit hlog in
theorem lowest_toNat {capacity : Int32} (h : 0 ≤ capacity.toInt) (last : UInt64) :
    (lowest capacity last).toNat = last.toNat - capacity.toInt.toNat := by
  rw [lowest]
  split_ifs with hlt
  · rw [UInt64.toNat_sub_of_le _ _ (UInt64.le_of_lt hlt), widen_toNat h]
  · rw [UInt64.lt_iff_toNat_lt, widen_toNat h] at hlt
    rw [UInt64.toNat_zero]
    omega

def Due (q : BinlogQueue) : Prop :=
  q.minSeq ≤ q.lastSeq ∧ widen (q.capacity + 10000) ≤ q.lastSeq - q.minSeq

instance (q : BinlogQueue) : Decidable q.Due := by
  unfold Due
  infer_instance

def stop (q : BinlogQueue) : UInt64 := q.lastSeq - widen q.capacity

omit hlog in
theorem due_room {q : BinlogQueue} (hdue : q.Due) (hlast : q.lastSeq.toNat ≤ kMaxSequenceNumber) :
    -10000 ≤ q.capacity.toInt ∧
      q.capacity.toInt + 10000 ≤ q.lastSeq.toNat - q.minSeq.toNat := by
  obtain ⟨hle, hroom⟩ := hdue
  rw [UInt64.le_iff_toNat_le, UInt64.toNat_sub_of_le _ _ hle] at hroom
  rw [UInt64.le_iff_toNat_le] at hle
  rw [kMaxSequenceNumber] at hlast
  have hsum : (q.capacity + 10000).toInt = (q.capacity.toInt + 10000).bmod (2 ^ 32) :=
    Int32.toInt_add _ _
  have hlow := q.capacity.le_toInt
  have hhigh := q.capacity.toInt_lt
  have heq := widen_eq (q.capacity + 10000)
  rw [Int.bmod] at hsum
  omega

omit hlog in
theorem stop_toInt {q : BinlogQueue} (hlow : -10000 ≤ q.capacity.toInt)
    (hle : q.capacity.toInt ≤ q.lastSeq.toNat) (hlast : q.lastSeq.toNat ≤ kMaxSequenceNumber) :
    (q.stop.toNat : ℤ) = q.lastSeq.toNat - q.capacity.toInt := by
  have heq := widen_eq q.capacity
  have hwide := (widen q.capacity).toNat_lt
  rw [kMaxSequenceNumber] at hlast
  rw [stop, UInt64.toNat_sub]
  omega

omit hlog in
theorem due_stop {q : BinlogQueue} (hdue : q.Due) (hlast : q.lastSeq.toNat ≤ kMaxSequenceNumber) :
    (q.stop.toNat : ℤ) = q.lastSeq.toNat - q.capacity.toInt := by
  obtain ⟨hlow, hroom⟩ := due_room hdue hlast
  exact stop_toInt hlow (by omega) hlast

end BinlogQueue

namespace Binlogs
open SSDBImpl

theorem logClean_idle {w : SSDBImpl} (h : ¬w.binlogs.Due) : (logClean w).2 = w := by
  rw [logClean, M.bind_apply, M.get_apply]
  split_ifs with hfail hidle
  · rfl
  · rfl
  · exact absurd ⟨UInt64.not_lt.mp hfail, UInt64.not_lt.mp hidle⟩ h

theorem logClean_due {w : SSDBImpl} (h : w.binlogs.Due)
    (hlast : w.binlogs.lastSeq.toNat ≤ kMaxSequenceNumber) (hw : w.faults.write = []) :
    ∃ db, (logClean w).2 = { w with
        ldb := db
        binlogs := { w.binlogs with minSeq := w.binlogs.stop + 1 } } ∧
      Cleared w.ldb db (Set.Icc w.binlogs.minSeq.toNat w.binlogs.stop.toNat) := by
  have hlow := w.binlogs.capacity.le_toInt
  have hstop := BinlogQueue.due_stop h hlast
  rw [kMaxSequenceNumber] at hlast
  obtain ⟨db, hrun, hcleared⟩ :=
    delRange_spec w.binlogs.minSeq (by omega : w.binlogs.stop.toNat + 1 < 2 ^ 64) hw
  refine ⟨db, ?_, hcleared⟩
  rw [logClean, M.bind_apply, M.get_apply, if_neg (UInt64.not_lt.mpr h.1),
    if_neg (UInt64.not_lt.mpr h.2)]
  simp only [M.bind_apply]
  rw [BinlogQueue.stop] at hrun
  rw [hrun]
  rfl

end Binlogs

namespace SSDBImpl

theorem fresh_new (enabled : Bool) (capacity : Int32) :
    fresh enabled capacity = ⟨.empty, .new .empty enabled capacity, .none⟩ := by
  rfl

end SSDBImpl
