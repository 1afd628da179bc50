import Ssdb.Library.Trimmed
import Ssdb.Theory.Flushing

open SSDBImpl Keys

abbrev Entry := Bytes × Byte × Byte

inductive Outcome
  | committed
  | failed
  | abandoned
deriving DecidableEq, Repr

inductive LogOp
  | transact (batch : Batch) (outcome : Outcome)
  | write (ops : {ops : List BatchOp // ∀ op ∈ ops, op.toRec.OffLog}) (fails : Bool)
  | delRange (start stop : UInt64) (fails : List Bool)
  | reopen

namespace LogOp

def step : LogOp → SSDBImpl → SSDBImpl
  | transact batch .committed, w => ((Plan.commit batch.1 true false).run w).2
  | transact batch .failed, w =>
    ((Plan.commit batch.1 true false).run { w with faults := ⟨[], [true]⟩ }).2
  | transact batch .abandoned, w => ((Plan.abort batch.1 ()).run w).2
  | write ops fails, w => (LevelDB.Write ops.1 { w with faults := ⟨[], [fails]⟩ }).2
  | delRange start stop fails, w =>
    { (Binlogs.delRange start stop { w with faults := ⟨[], fails⟩ }).2 with faults := .none }
  | reopen, w => w.reopened

def Lowest : LogOp → SSDBImpl → Prop
  | delRange start stop _, w =>
    stop.toNat + 1 < 2 ^ 64 ∧ ∀ x, w.ldb.table.get (encodeSeqKey x) ≠ none → start ≤ x
  | _, _ => True

def added (batch : Batch) : Outcome → List Entry
  | .committed => Rec.entries batch.1
  | .failed => []
  | .abandoned => []

def onList : LogOp → Trimmed Entry → Trimmed Entry
  | transact batch outcome, l => l.append (added batch outcome)
  | write _ _, l => l
  | delRange start stop fails, l => l.trim (Binlogs.reached stop.toNat fails start.toNat)
  | reopen, l => if l.gone < l.last then l else .empty

end LogOp

structure Shows (w : SSDBImpl) (l : Trimmed Entry) : Prop where
  last : w.binlogs.lastSeq.toNat = l.last
  transact : ∀ batch outcome,
    let w' := (LogOp.transact batch outcome).step w
    w'.ldb.sequence ≤ kMaxSequenceNumber →
      w'.binlogs.lastSeq.toNat = w.binlogs.lastSeq.toNat + (LogOp.added batch outcome).length ∧
        ∀ x, w'.ldb.table.get (encodeSeqKey x) =
          if x ≤ w.binlogs.lastSeq then w.ldb.table.get (encodeSeqKey x)
          else (LogOp.added batch outcome)[x.toNat - w.binlogs.lastSeq.toNat - 1]?.map
            fun (key, type, cmd) => Binlog x type cmd key
  header : ∀ key value, key.head? = some DataType.SYNCLOG → w.ldb.table.get key = some value →
    key = encodeSeqKey (Binlog.seq value) ∧ l.get (Binlog.seq value).toNat =
      some (Binlog.key value, Binlog.type value, Binlog.cmd value)
  stored : ∀ n, l.get n ≠ none → ∃ x : UInt64, x.toNat = n ∧ w.ldb.table.get (encodeSeqKey x) ≠ none
  next : ∀ seq, (∃ x value, BinlogQueue.findNext w.ldb seq = (1, value) ∧
      w.ldb.table.get (encodeSeqKey x) = some value ∧ seq ≤ x ∧
        ∀ y, w.ldb.table.get (encodeSeqKey y) ≠ none → seq ≤ y → x ≤ y) ∨
    (∀ y, w.ldb.table.get (encodeSeqKey y) ≠ none → y < seq) ∧ (BinlogQueue.findNext w.ldb seq).1 = 0
  newest : (∃ y, w.ldb.table.get (encodeSeqKey y) ≠ none) →
    (∃ value, BinlogQueue.findLast w.ldb = (1, value) ∧
      w.ldb.table.get (encodeSeqKey w.binlogs.lastSeq) = some value) ∧
        ∀ enabled capacity,
          (BinlogQueue.new w.ldb enabled capacity).lastSeq = w.binlogs.lastSeq

namespace LogOp

theorem step_sequence (op : LogOp) (w : SSDBImpl) : w.ldb.sequence ≤ (op.step w).ldb.sequence := by
  cases op with
  | transact batch outcome =>
    cases outcome with
    | committed => exact Plan.run_sequence w _
    | failed => exact Plan.run_sequence { w with faults := ⟨[], [true]⟩ } _
    | abandoned => exact le_rfl
  | write ops fails =>
    cases fails with
    | true => exact le_rfl
    | false => exact Nat.le_add_right _ _
  | delRange start stop fails =>
    exact keeps_delRangeFrom ((sequence_kept w.ldb.sequence).mono fun _ _ => trivial) _ _ _
      { w with faults := ⟨[], fails⟩ } le_rfl
  | reopen => exact le_rfl

section write
variable {ops : List BatchOp}

theorem offLog_get (hops : ∀ op ∈ ops, op.toRec.OffLog) (t : OrdMap Bytes Bytes) (x : UInt64) :
    (ops.foldl BatchOp.apply t).get (encodeSeqKey x) = t.get (encodeSeqKey x) := by
  induction ops generalizing t with
  | nil => rfl
  | cons op ops ih =>
    have hne {key : Bytes} (hkey : key.head? ≠ some DataType.SYNCLOG) : encodeSeqKey x ≠ key := by
      rintro rfl
      exact hkey rfl
    have hfirst := hops op (by simp)
    rw [List.foldl_cons, ih fun op' h => hops op' (by simp [h])]
    cases op with
    | put key value => exact OrdMap.get_insert_ne _ _ (hne hfirst)
    | delete key => exact OrdMap.get_erase_ne _ (hne hfirst)

theorem offLog_logbook (hops : ∀ op ∈ ops, op.toRec.OffLog) {t : OrdMap Bytes Bytes}
    (ht : Logbook t) : Logbook (ops.foldl BatchOp.apply t) := by
  induction ops generalizing t with
  | nil => exact ht
  | cons op ops ih =>
    have hfirst := hops op (by simp)
    refine ih (fun op' h => hops op' (by simp [h])) ?_
    cases op with
    | put key value => exact logbook_insert ht fun hhead => absurd hhead hfirst
    | delete key => exact logbook_erase ht key

end write

structure Refines (w : SSDBImpl) (l : Trimmed Entry) : Prop where
  logging : Logging w
  last : w.binlogs.lastSeq.toNat = l.last
  stored : ∀ x, w.ldb.table.get (encodeSeqKey x) =
    (l.get x.toNat).map fun (key, type, cmd) => Binlog x type cmd key

theorem refines_fresh (capacity : Int32) : Refines (fresh true capacity) .empty where
  logging := logging_fresh capacity
  last := rfl
  stored x := by
    rw [Trimmed.get_empty]
    rfl

namespace Refines
variable {w : SSDBImpl} {l : Trimmed Entry} (h : Refines w l)
include h

theorem same {w' : SSDBImpl} (hldb : w'.ldb = w.ldb) (hfaults : w'.faults = .none)
    (hlast : w'.binlogs.lastSeq = w.binlogs.lastSeq)
    (henabled : w'.binlogs.enabled = w.binlogs.enabled) : Refines w' l := by
  obtain ⟨⟨hon, -, hlogbook, hstored, hroom⟩, hlength, hget⟩ := h
  rw [← hlast] at hlength hstored hroom
  rw [← hldb] at hlogbook hstored hroom hget
  exact ⟨⟨henabled.trans hon, hfaults, hlogbook, hstored, hroom⟩, hlength, hget⟩

theorem committed {batch : Batch}
    (hseq : ((transact batch .committed).step w).ldb.sequence ≤ kMaxSequenceNumber) :
    Refines ((transact batch .committed).step w) (l.append (Rec.entries batch.1)) := by
  obtain ⟨hlogging, hlast, -⟩ := h.logging.transact hseq
  have heq : (transact batch .committed).step w = w.committed batch.1 := h.logging.transact_eq batch
  obtain ⟨htable, -⟩ := committed_numbered batch.1 h.logging.enabled
  have hroom := (committed_room h.logging.enabled h.logging.last (heq ▸ hseq)).1
  have hlength := h.last
  refine ⟨hlogging, ?_, fun x => ?_⟩
  · rw [Trimmed.last_append, ← hlength]
    exact hlast
  rw [heq, htable, Trimmed.get_append]
  split_ifs with hx
  · have hle : x ≤ w.binlogs.lastSeq := by
      rw [UInt64.le_iff_toNat_le]
      omega
    rw [BinlogQueue.numbered_frame batch.2 hroom _ (.inl hle), h.stored]
  · cases hentry : (Rec.entries batch.1)[x.toNat - l.last - 1]? with
    | none =>
      have hlen := List.getElem?_eq_none_iff.mp hentry
      rw [BinlogQueue.numbered_frame batch.2 hroom _ (.inr (by omega)), h.stored,
        l.get_none (by omega)]
    | some e =>
      obtain ⟨key, type, cmd⟩ := e
      exact BinlogQueue.numbered_entry batch.2 hroom _ (by omega) hentry

theorem transact {batch : Batch} {outcome : Outcome}
    (hseq : ((transact batch outcome).step w).ldb.sequence ≤ kMaxSequenceNumber) :
    Refines ((LogOp.transact batch outcome).step w) (l.append (added batch outcome)) := by
  obtain ⟨-, hlast, -, henabled⟩ := BinlogQueue.recordAll_fixed batch.1 w.binlogs.begin
  cases outcome with
  | committed => exact h.committed hseq
  | failed =>
    have heq : (LogOp.transact batch .failed).step w =
        SSDBImpl.failed { w with faults := ⟨[], [true]⟩ } batch.1 := by
      rw [step, Plan.run_commit_failed _ batch.1 true false rfl]
    rw [heq, added, Trimmed.append_nil]
    exact h.same rfl rfl hlast henabled
  | abandoned =>
    rw [added, Trimmed.append_nil]
    have hldb : ((LogOp.transact batch .abandoned).step w).ldb = w.ldb := rfl
    exact h.same hldb h.logging.faults hlast henabled

theorem write {ops : {ops : List BatchOp // ∀ op ∈ ops, op.toRec.OffLog}} {fails : Bool} :
    Refines ((LogOp.write ops fails).step w) l := by
  cases fails with
  | true => exact h.same rfl rfl rfl rfl
  | false =>
    have hget := offLog_get ops.2 w.ldb.table
    have hbook := offLog_logbook ops.2 h.logging.logbook
    refine ⟨⟨h.logging.enabled, rfl, hbook, fun n hn => ?_, ?_⟩, h.last, fun x => ?_⟩
    · obtain ⟨x, rfl, hx⟩ := hn
      refine h.logging.stored x.toNat (mem_logSeqs.mpr ?_)
      rw [← hget]
      exact hx
    · exact h.logging.last.trans (Nat.le_add_right _ _)
    · rw [← h.stored]
      exact hget x

theorem delRange {start stop : UInt64} {fails : List Bool}
    (hlow : Lowest (.delRange start stop fails) w) :
    Refines ((LogOp.delRange start stop fails).step w)
      (l.trim (Binlogs.reached stop.toNat fails start.toNat)) := by
  obtain ⟨hstop, hlow⟩ := hlow
  obtain ⟨hbinlogs, -, hbook, hseq, hget⟩ := Binlogs.delRangeFrom_removed hstop
    (stop.toNat + 1 - start.toNat) start (by omega) { w with faults := ⟨[], fails⟩ }
  have hlast := congrArg BinlogQueue.lastSeq hbinlogs
  have henabled := congrArg BinlogQueue.enabled hbinlogs
  simp only at hbinlogs hbook hseq hget hlast henabled
  have hget' (x : UInt64) : ((LogOp.delRange start stop fails).step w).ldb.table.get (encodeSeqKey x) =
      if x.toNat < Binlogs.reached stop.toNat fails start.toNat then none
      else w.ldb.table.get (encodeSeqKey x) := by
    refine (hget x).trans ?_
    rcases em (w.ldb.table.get (encodeSeqKey x) = none) with hnone | hsome
    · rw [hnone, ite_self, ite_self]
    · have hle := UInt64.le_iff_toNat_le.mp (hlow x hsome)
      simp only [hle, true_and]
  refine ⟨⟨henabled.trans h.logging.enabled, rfl, hbook h.logging.logbook, fun n hn => ?_, ?_⟩, ?_,
    fun x => ?_⟩
  · obtain ⟨x, rfl, hx⟩ := hn
    have hold : w.ldb.table.get (encodeSeqKey x) ≠ none := by
      rw [hget'] at hx
      split_ifs at hx
      · exact absurd rfl hx
      · exact hx
    exact (h.logging.stored x.toNat (mem_logSeqs.mpr hold)).trans (congrArg UInt64.toNat hlast).ge
  · exact ((congrArg UInt64.toNat hlast).le.trans h.logging.last).trans hseq
  · rw [Trimmed.last_trim, ← h.last]
    exact congrArg UInt64.toNat hlast
  · rw [hget', Trimmed.get_trim, h.stored]
    split_ifs <;> rfl

theorem stored_iff (x : UInt64) : w.ldb.table.get (encodeSeqKey x) ≠ none ↔ l.get x.toNat ≠ none := by
  rw [h.stored, ne_eq, Option.map_eq_none_iff]

theorem reopen (hseq : w.ldb.sequence ≤ kMaxSequenceNumber) :
    Refines (LogOp.reopen.step w) (onList .reopen l) := by
  obtain ⟨hlogging, hnew⟩ := h.logging.reopen hseq
  have hlength := h.last
  have hlt := w.binlogs.lastSeq.toNat_lt
  rcases lt_or_ge l.gone l.last with hgone | hgone
  · have hsome : w.binlogs.lastSeq.toNat ∈ logSeqs w.ldb.table := by
      rw [mem_logSeqs, h.stored_iff, l.get_ne_none]
      omega
    have hsame : (LogOp.reopen.step w).binlogs.lastSeq.toNat = w.binlogs.lastSeq.toNat := by
      rcases hnew with hgreatest | ⟨hempty, -⟩
      · exact le_antisymm (h.logging.stored _ hgreatest.1) (hgreatest.2 hsome)
      · rw [hempty] at hsome
        exact hsome.elim
    rw [onList, if_pos hgone]
    exact ⟨hlogging, hsame.trans hlength, h.stored⟩
  · have hempty (x : UInt64) : w.ldb.table.get (encodeSeqKey x) = none := by
      refine not_not.mp fun hx => ?_
      have hin := l.get_ne_none.mp ((h.stored_iff x).mp hx)
      omega
    have hzero : (LogOp.reopen.step w).binlogs.lastSeq.toNat = 0 := by
      rcases hnew with ⟨⟨x, -, hx⟩, -⟩ | ⟨-, hzero⟩
      · exact absurd (hempty x) hx
      · exact congrArg UInt64.toNat hzero
    rw [onList, if_neg (not_lt.mpr hgone)]
    refine ⟨hlogging, hzero, fun x => ?_⟩
    rw [Trimmed.get_empty]
    exact hempty x

theorem step {op : LogOp} (hlow : Lowest op w)
    (hseq : (op.step w).ldb.sequence ≤ kMaxSequenceNumber) : Refines (op.step w) (onList op l) := by
  cases op with
  | transact batch outcome => exact h.transact hseq
  | write ops fails => exact h.write
  | delRange start stop fails => exact h.delRange hlow
  | reopen => exact h.reopen hseq

theorem header {key value : Bytes} (hhead : key.head? = some DataType.SYNCLOG)
    (hget : w.ldb.table.get key = some value) : key = encodeSeqKey (Binlog.seq value) ∧
      l.get (Binlog.seq value).toNat =
        some (Binlog.key value, Binlog.type value, Binlog.cmd value) := by
  obtain ⟨x, -, -, -, -, rfl, -⟩ := h.logging.logbook key value hget hhead
  rw [h.stored] at hget
  obtain ⟨⟨k, type, cmd⟩, hentry, rfl⟩ := Option.map_eq_some_iff.mp hget
  rw [Binlog.seq_binlog, Binlog.key_binlog, Binlog.type_binlog, Binlog.cmd_binlog]
  exact ⟨rfl, hentry⟩

theorem stored_last (hsome : ∃ y, w.ldb.table.get (encodeSeqKey y) ≠ none) :
    IsGreatest (logSeqs w.ldb.table) w.binlogs.lastSeq.toNat := by
  obtain ⟨y, hy⟩ := hsome
  have hin := l.get_ne_none.mp ((h.stored_iff y).mp hy)
  have hlength := h.last
  refine ⟨mem_logSeqs.mpr ((h.stored_iff _).mpr (l.get_ne_none.mpr ?_)), h.logging.stored⟩
  omega

theorem next (seq : UInt64) : (∃ x value, BinlogQueue.findNext w.ldb seq = (1, value) ∧
      w.ldb.table.get (encodeSeqKey x) = some value ∧ seq ≤ x ∧
        ∀ y, w.ldb.table.get (encodeSeqKey y) ≠ none → seq ≤ y → x ≤ y) ∨
    (∀ y, w.ldb.table.get (encodeSeqKey y) ≠ none → y < seq) ∧
      (BinlogQueue.findNext w.ldb seq).1 = 0 := by
  rcases BinlogQueue.findNext_spec h.logging.logbook seq with ⟨x, hfinds, hle, hmin⟩ | ⟨hall, hret⟩
  · have hvalue := hfinds.value h.logging.logbook (BinlogQueue.findNext_stored hfinds.1)
    refine .inl ⟨x, _, Prod.ext hfinds.1 rfl, hvalue, hle, fun y hy hge => ?_⟩
    rw [UInt64.le_iff_toNat_le] at hge ⊢
    exact hmin y.toNat (mem_logSeqs.mpr hy) hge
  · refine .inr ⟨fun y hy => ?_, hret⟩
    rw [UInt64.lt_iff_toNat_lt]
    exact hall y.toNat (mem_logSeqs.mpr hy)

theorem newest (hseq : w.ldb.sequence ≤ kMaxSequenceNumber)
    (hsome : ∃ y, w.ldb.table.get (encodeSeqKey y) ≠ none) :
    (∃ value, BinlogQueue.findLast w.ldb = (1, value) ∧
      w.ldb.table.get (encodeSeqKey w.binlogs.lastSeq) = some value) ∧
        ∀ enabled capacity,
          (BinlogQueue.new w.ldb enabled capacity).lastSeq = w.binlogs.lastSeq := by
  have hgreatest := h.stored_last hsome
  have hbound := h.logging.last.trans hseq
  rw [kMaxSequenceNumber] at hbound
  have hroom (n : ℕ) (hn : n ∈ logSeqs w.ldb.table) : n < 2 ^ 64 - 1 := by
    have hle := h.logging.stored n hn
    omega
  constructor
  · rcases BinlogQueue.findLast_spec h.logging.logbook hroom with ⟨x, hfinds, hmax⟩ | ⟨hempty, -⟩
    · obtain rfl : x = w.binlogs.lastSeq := UInt64.toNat_inj.mp
        (le_antisymm (h.logging.stored _ (mem_logSeqs.mpr hfinds.2.2)) (hmax _ hgreatest.1))
      exact ⟨_, Prod.ext hfinds.1 rfl,
        hfinds.value h.logging.logbook (BinlogQueue.findLast_stored hfinds.1)⟩
    · rw [hempty] at hgreatest
      exact hgreatest.1.elim
  · intro enabled capacity
    rcases BinlogQueue.new_last h.logging.logbook hroom enabled capacity with hnew | ⟨hempty, -⟩
    · exact UInt64.toNat_inj.mp (hnew.unique hgreatest)
    · rw [hempty] at hgreatest
      exact hgreatest.1.elim

theorem shows (hseq : w.ldb.sequence ≤ kMaxSequenceNumber) : Shows w l where
  last := h.last
  transact batch outcome hroom := by
    have hnext := h.transact hroom
    have hlength := h.last
    refine ⟨?_, fun x => ?_⟩
    · rw [hnext.last, Trimmed.last_append, hlength]
    · rw [hnext.stored, Trimmed.get_append, h.stored]
      simp only [UInt64.le_iff_toNat_le, hlength]
      split_ifs <;> rfl
  header _ _ := h.header
  stored n hn := by
    have hin := l.get_ne_none.mp hn
    have hlength := h.last
    have hlt := w.binlogs.lastSeq.toNat_lt
    have hx : (UInt64.ofNat n).toNat = n := UInt64.toNat_ofNat_of_lt' (by change n < 2 ^ 64; omega)
    refine ⟨UInt64.ofNat n, hx, (h.stored_iff _).mpr ?_⟩
    rw [hx]
    exact hn
  next := h.next
  newest := h.newest hseq

end Refines

open Trace

/-- In every run whose deletions are of lowest ranges the log is the list that the run leaves. -/
theorem append_only (capacity : Int32) (ops : List LogOp) :
    let w := run step ops (fresh true capacity)
    Along step Lowest ops (fresh true capacity) → w.ldb.sequence ≤ kMaxSequenceNumber →
      Shows w (run onList ops .empty) := by
  intro w hlow hseq
  have hbound := (along_le (fun w : SSDBImpl => w.ldb.sequence) step_sequence ops hseq).2
  have hrefines := (hlow.and hbound).simulation (R := Refines)
    (fun op w l hop h => h.step hop.1 hop.2) (refines_fresh capacity)
  exact hrefines.shows hseq

theorem append_only_sets :
    let ops := [transact (LogEvent.setBatch [107] [49] 1) .committed,
      transact (LogEvent.setBatch [107] [50] 1) .failed,
      transact (LogEvent.setBatch [107] [50] 1) .abandoned,
      transact (LogEvent.setBatch [107] [50] 1) .committed, delRange 0 1 [], reopen]
    Shows (run step ops (fresh true 1000)) (run onList ops .empty) :=
  append_only 1000
    [transact (LogEvent.setBatch [107] [49] 1) .committed,
      transact (LogEvent.setBatch [107] [50] 1) .failed,
      transact (LogEvent.setBatch [107] [50] 1) .abandoned,
      transact (LogEvent.setBatch [107] [50] 1) .committed, delRange 0 1 [], reopen]
    ⟨trivial, trivial, trivial, trivial, ⟨by decide, fun _ _ => UInt64.zero_le⟩, trivial, trivial⟩
    (by decide)

end LogOp
