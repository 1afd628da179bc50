import Ssdb.Store.Options
import Ssdb.Theory.Positions

inductive Cleaner
  | off
  | top
  | passed
  | due
  | deleting (start stop : UInt64)
  | deleted (stop : UInt64)
  | aborted
deriving DecidableEq, Repr

structure Session where
  store : SSDBImpl
  cleaner : Cleaner

namespace Session
open SSDBImpl Binlogs BinlogQueue

def start (ndebug : Bool) (conf : Config) (db : LevelDB) : Session :=
  let opt := Options.load ndebug conf
  ⟨openOn opt db, if opt.binlog then .top else .off⟩

def clean (ndebug : Bool) (s : Session) : Session :=
  let q := s.store.binlogs
  match s.cleaner with
  | .off => s
  | .top =>
    -- `assert` is compiled out under `NDEBUG`
    if q.lastSeq ≥ q.minSeq ∨ ndebug then { s with cleaner := .passed } else { s with cleaner := .aborted }
  | .passed =>
    if q.lastSeq - q.minSeq < widen (q.capacity + 10000) then { s with cleaner := .top }
    else { s with cleaner := .due }
  | .due => { s with cleaner := .deleting q.minSeq (q.lastSeq - widen q.capacity) }
  | .deleting start stop =>
    if start ≤ stop then
      let (batch, next) := delBatch stop 1000 start
      match LevelDB.Write batch s.store with
      | (true, w) => ⟨w, .deleting next stop⟩
      | (false, w) => ⟨w, .deleted stop⟩
    else { s with cleaner := .deleted stop }
  | .deleted stop => ⟨{ s.store with binlogs := { q with minSeq := stop + 1 } }, .top⟩
  | .aborted => s

inductive Event
  | commit (batch : Batch)
  | clean

def step (ndebug : Bool) : Event → Session → Session
  | .commit batch, s =>
    if s.cleaner = .aborted then s else { s with store := (LogEvent.transact batch).step s.store }
  | .clean, s => s.clean ndebug

def deletes (s : Session) : Set ℕ :=
  match s.cleaner with
  | .deleting start stop => {n | start ≤ stop ∧ ∃ x : UInt64, x.toNat = n ∧
      .delete (Keys.encodeSeqKey x) ∈ (delBatch stop 1000 start).1}
  | _ => ∅

inductive Left (ndebug : Bool) : LevelDB → Prop
  | empty : Left ndebug .empty
  | session {db : LevelDB} (h : Left ndebug db) (conf : Config) (es : List Event) :
    Left ndebug (Trace.run (step ndebug) es (start ndebug conf db)).store.ldb

def effective (ndebug : Bool) (conf : Config) : ℕ :=
  if conf.getNum "replication.binlog.capacity" ≤ 0 then (Options.LOG_QUEUE_SIZE ndebug).toInt.toNat
  else (conf.getNum "replication.binlog.capacity").toInt.toNat

structure Behind (ndebug : Bool) (conf : Config) (db : LevelDB) (s : Session) : Prop where
  asserted : s.cleaner ≠ .aborted ∧ (s.cleaner = .top → s.store.binlogs.minSeq ≤ s.store.binlogs.lastSeq)
  older : ∀ n ∈ s.deletes, n < s.store.binlogs.lastSeq.toNat
  kept : ∀ n ≤ s.store.binlogs.lastSeq.toNat,
    s.store.binlogs.lastSeq.toNat < n + effective ndebug conf →
      (n ∈ logSeqs db.table ∨ (start ndebug conf db).store.binlogs.lastSeq.toNat < n) →
        n ∈ logSeqs s.store.ldb.table

end Session

namespace SSDBImpl

structure InOrder (w : SSDBImpl) : Prop where
  faults : w.faults = Faults.none
  logbook : Logbook w.ldb.table
  stored : ∀ n ∈ logSeqs w.ldb.table, n ≤ w.binlogs.lastSeq.toNat
  last : w.binlogs.lastSeq.toNat ≤ w.ldb.sequence

theorem Logging.inOrder {w : SSDBImpl} (h : Logging w) : InOrder w :=
  ⟨h.faults, h.logbook, h.stored, h.last⟩

theorem recordAll_disabled (recs : List Rec) {q : BinlogQueue} (h : q.enabled = false) (seq : UInt64) :
    (q.recordAll recs).tranSeq = q.tranSeq ∧ (q.recordAll recs).batch =
      q.batch ++ BinlogQueue.numbered seq (recs.filter fun r => r.entry = none) := by
  induction recs generalizing q with
  | nil => simp [BinlogQueue.recordAll, BinlogQueue.numbered]
  | cons r recs ih =>
    rw [BinlogQueue.recordAll_cons]
    cases r with
    | put key value =>
      obtain ⟨h1, h2⟩ := ih (q := q.record (.put key value)) h
      rw [h1, h2]
      simp [BinlogQueue.record, BinlogQueue.Put, BinlogQueue.numbered, Rec.entry]
    | delete key =>
      obtain ⟨h1, h2⟩ := ih (q := q.record (.delete key)) h
      rw [h1, h2]
      simp [BinlogQueue.record, BinlogQueue.Delete, BinlogQueue.numbered, Rec.entry]
    | log type cmd key =>
      have hsame : q.record (.log type cmd key) = q := by
        simp [BinlogQueue.record, BinlogQueue.addLog, h]
      obtain ⟨h1, h2⟩ := ih (q := q.record (.log type cmd key)) (by rw [hsame]; exact h)
      rw [h1, h2, hsame]
      simp [Rec.entry]

theorem InOrder.transact {w w' : SSDBImpl} (h : InOrder w) {batch : Batch}
    (hstep : (LogEvent.transact batch).step w = w') (hseq : w'.ldb.sequence ≤ kMaxSequenceNumber) :
    InOrder w' ∧ w'.binlogs.minSeq = w.binlogs.minSeq ∧ w'.binlogs.capacity = w.binlogs.capacity ∧
      w.binlogs.lastSeq.toNat ≤ w'.binlogs.lastSeq.toNat ∧ logSeqs w'.ldb.table =
        logSeqs w.ldb.table ∪ Set.Ioc w.binlogs.lastSeq.toNat w'.binlogs.lastSeq.toNat := by
  subst hstep
  cases henabled : w.binlogs.enabled with
  | true =>
    have hlogging : Logging w := ⟨henabled, h.faults, h.logbook, h.stored, h.last⟩
    obtain ⟨hstep, hlast, hseqs, hmin, hcapacity⟩ := hlogging.transact hseq
    refine ⟨hstep.inOrder, hmin, hcapacity, by omega, ?_⟩
    rw [hlast]
    exact hseqs
  | false =>
    have hquiet : w.faults.write.head? ≠ some true := by simp [h.faults, Faults.none]
    have hrun : (LogEvent.transact batch).step w = w.committed batch.1 := by
      rw [LogEvent.step, Plan.run_commit w batch.1 true false hquiet]
    obtain ⟨htran, hbatch⟩ := recordAll_disabled batch.1 (q := w.binlogs.begin) henabled 0
    obtain ⟨hmin, -, hcapacity, -⟩ := BinlogQueue.recordAll_fixed batch.1 w.binlogs.begin
    have hoff : ∀ r ∈ batch.1.filter (fun r => r.entry = none), r.OffLog :=
      fun r hr => batch.2 r (List.mem_of_mem_filter hr)
    have hnone : Rec.entries (batch.1.filter fun r => r.entry = none) = [] := by
      rw [Rec.entries, List.filterMap_eq_nil_iff]
      intro r hr
      exact of_decide_eq_true (List.mem_filter.mp hr).2
    have hroom : (0 : UInt64).toNat +
        (Rec.entries (batch.1.filter fun r => r.entry = none)).length < 2 ^ 64 := by
      rw [hnone]
      decide
    have htable : (w.committed batch.1).ldb.table =
        (BinlogQueue.numbered 0 (batch.1.filter fun r => r.entry = none)).foldl BatchOp.apply
          w.ldb.table := congrArg (fun batch => batch.foldl BatchOp.apply w.ldb.table) hbatch
    have hseqs := BinlogQueue.logSeqs_numbered hoff hroom w.ldb.table
    rw [← htable, hnone, List.length_nil, Nat.add_zero, Set.Ioc_self, Set.union_empty] at hseqs
    have hlast : (w.committed batch.1).binlogs.lastSeq = w.binlogs.lastSeq := htran
    rw [hrun, hlast, Set.Ioc_self, Set.union_empty]
    refine ⟨⟨?_, ?_, fun n hn => ?_, ?_⟩, hmin, hcapacity, le_rfl, hseqs⟩
    · rw [committed_faults, h.faults]
      rfl
    · rw [htable]
      exact BinlogQueue.logbook_numbered hoff hroom h.logbook
    · rw [hseqs] at hn
      rw [hlast]
      exact h.stored n hn
    · rw [hlast]
      exact h.last.trans (Nat.le_add_right _ _)

end SSDBImpl

def Cleaner.Follows (q : BinlogQueue) : Cleaner → Prop
  | .due => -10000 ≤ q.capacity.toInt ∧ q.capacity.toInt ≤ q.lastSeq.toNat
  | .deleting _ stop | .deleted stop =>
    -10000 ≤ q.capacity.toInt ∧ stop.toNat + q.capacity.toInt ≤ q.lastSeq.toNat
  | .off | .top | .passed | .aborted => True

theorem Cleaner.Follows.mono {q q' : BinlogQueue} {c : Cleaner} (h : c.Follows q)
    (hcapacity : q'.capacity = q.capacity) (hlast : q.lastSeq.toNat ≤ q'.lastSeq.toNat) :
    c.Follows q' := by
  cases c with
  | due | deleting | deleted =>
    rw [Follows] at h ⊢
    rw [hcapacity]
    omega
  | off | top | passed | aborted => trivial

namespace BinlogQueue

theorem lowest_le (capacity : Int32) (last : UInt64) :
    (lowest capacity last).toNat ≤ last.toNat := by
  rw [lowest]
  split_ifs with hlt
  · rw [UInt64.toNat_sub_of_le _ _ (UInt64.le_of_lt hlt)]
    exact Nat.sub_le _ _
  · exact Nat.zero_le _

end BinlogQueue

namespace Session
open SSDBImpl Binlogs BinlogQueue

def Overrun (capacity : Int32) : Prop := -10000 ≤ capacity.toInt ∧ capacity.toInt < 0

instance (capacity : Int32) : Decidable (Overrun capacity) := inferInstanceAs (Decidable (_ ∧ _))

structure Inv (capacity : Int32) (log : Set ℕ) (last : ℕ) (s : Session) : Prop where
  inOrder : InOrder s.store
  capacity : s.store.binlogs.capacity = capacity
  nonzero : s.store.binlogs.capacity.toInt ≠ 0
  min : s.store.binlogs.minSeq.toNat ≤ s.store.binlogs.lastSeq.toNat ∨
    Overrun s.store.binlogs.capacity
  follows : s.cleaner.Follows s.store.binlogs
  aborted : s.cleaner = .aborted → Overrun s.store.binlogs.capacity
  kept : ∀ n ≤ s.store.binlogs.lastSeq.toNat,
    (s.store.binlogs.capacity.toInt < -10000 ∨
      s.store.binlogs.lastSeq.toNat < n + s.store.binlogs.capacity.toInt) →
        (n ∈ log ∨ last < n) → n ∈ logSeqs s.store.ldb.table

variable {ndebug : Bool} {capacity : Int32} {log : Set ℕ} {last : ℕ} {s : Session}

theorem Inv.commit (h : Inv capacity log last s) {batch : Batch} {w' : SSDBImpl}
    (hstep : (LogEvent.transact batch).step s.store = w')
    (hseq : w'.ldb.sequence ≤ kMaxSequenceNumber) : Inv capacity log last { s with store := w' } := by
  obtain ⟨hinOrder, hmin, hcapacity, hlast, hseqs⟩ := h.inOrder.transact hstep hseq
  refine ⟨hinOrder, hcapacity.trans h.capacity, by rw [hcapacity]; exact h.nonzero, ?_,
    h.follows.mono hcapacity hlast, fun haborted => by rw [hcapacity]; exact h.aborted haborted,
    fun n hn hnew hcame => ?_⟩
  · rw [hcapacity, hmin]
    exact h.min.imp_left fun hle => hle.trans hlast
  · dsimp only at hn hnew ⊢
    rw [hcapacity] at hnew
    rw [hseqs]
    rcases le_or_gt n s.store.binlogs.lastSeq.toNat with hold | hnext
    · exact .inl (h.kept n hold (by omega) hcame)
    · exact .inr ⟨hnext, hn⟩

theorem Inv.move (h : Inv capacity log last s) {c : Cleaner} (hfollows : c.Follows s.store.binlogs)
    (haborted : c = .aborted → Overrun s.store.binlogs.capacity) :
    Inv capacity log last { s with cleaner := c } :=
  ⟨h.inOrder, h.capacity, h.nonzero, h.min, hfollows, haborted, h.kept⟩

theorem Inv.batch (h : Inv capacity log last s) {start stop : UInt64} (hle : start ≤ stop)
    (hfollows : (Cleaner.deleted stop).Follows s.store.binlogs)
    (hlast : s.store.binlogs.lastSeq.toNat ≤ kMaxSequenceNumber) (next : UInt64) :
    Inv capacity log last ⟨{ s.store with ldb := s.store.ldb.write (delBatch stop 1000 start).1 },
      .deleting next stop⟩ := by
  rw [kMaxSequenceNumber] at hlast
  rw [UInt64.le_iff_toNat_le] at hle
  have hf := hfollows
  rw [Cleaner.Follows] at hf
  have hroom : stop.toNat + 1 < 2 ^ 64 := by omega
  have hcleared := cleared_batch hroom 1000 (by omega : start.toNat ≤ stop.toNat + 1) s.store.ldb
  have hnext := (delBatch_spec hroom 1000 (by omega : start.toNat ≤ stop.toNat + 1)
    s.store.ldb.table).1
  have hwithin : ∀ n ∈ logSeqs (s.store.ldb.write (delBatch stop 1000 start).1).table,
      n ∈ logSeqs s.store.ldb.table := fun n hn => by
    rw [hcleared.seqs] at hn
    exact hn.1
  refine ⟨⟨h.inOrder.faults, hcleared.logbook h.inOrder.logbook,
    fun n hn => h.inOrder.stored n (hwithin n hn), h.inOrder.last.trans hcleared.sequence⟩,
    h.capacity, h.nonzero, h.min, hfollows, Cleaner.noConfusion, fun n hn hnew hcame => ?_⟩
  rw [hcleared.seqs]
  refine ⟨h.kept n hn hnew hcame, fun hin => ?_⟩
  have hlt := hin.2
  dsimp only at hnew
  omega

theorem Inv.clean (h : Inv capacity log last s)
    (hlast : s.store.binlogs.lastSeq.toNat ≤ kMaxSequenceNumber) :
    Inv capacity log last (s.clean ndebug) := by
  obtain ⟨w, c⟩ := s
  have hf := h.follows
  cases c with
  | off | aborted => exact h
  | top =>
    rw [Session.clean]
    dsimp only
    split_ifs with hassert
    · exact h.move trivial Cleaner.noConfusion
    · refine h.move trivial fun _ => h.min.resolve_left fun hle => hassert (.inl ?_)
      exact UInt64.le_iff_toNat_le.mpr hle
  | passed =>
    rw [Session.clean]
    dsimp only
    split_ifs with hidle
    · exact h.move trivial Cleaner.noConfusion
    · refine h.move ?_ Cleaner.noConfusion
      rw [Cleaner.Follows]
      rcases h.min with hle | hover
      · have hdue : w.binlogs.Due := ⟨UInt64.le_iff_toNat_le.mpr hle, UInt64.not_lt.mp hidle⟩
        obtain ⟨hlow, hroom⟩ := due_room hdue hlast
        refine ⟨hlow, ?_⟩
        dsimp only at hroom ⊢
        omega
      · exact ⟨hover.1, hover.2.le.trans (Int.natCast_nonneg _)⟩
  | due =>
    rw [Cleaner.Follows] at hf
    have hstop := stop_toInt hf.1 hf.2 hlast
    rw [BinlogQueue.stop] at hstop
    dsimp only at hstop hf
    have hmoved : (Cleaner.deleting w.binlogs.minSeq
        (w.binlogs.lastSeq - widen w.binlogs.capacity)).Follows w.binlogs := by
      rw [Cleaner.Follows]
      omega
    exact h.move hmoved Cleaner.noConfusion
  | deleting start stop =>
    rw [Session.clean]
    dsimp only
    split_ifs with hle
    · have hquiet : w.faults.write = [] := by rw [h.inOrder.faults]; rfl
      rw [Write_apply _ hquiet]
      exact h.batch hle hf hlast _
    · exact h.move hf Cleaner.noConfusion
  | deleted stop =>
    rw [Session.clean]
    rw [Cleaner.Follows] at hf
    dsimp only at hf hlast ⊢
    rw [kMaxSequenceNumber] at hlast
    have hnext : (stop + 1).toNat = stop.toNat + 1 := by
      rw [UInt64.toNat_add]
      exact Nat.mod_eq_of_lt (by change _ + 1 < _; omega)
    have hinOrder := h.inOrder
    refine ⟨⟨hinOrder.faults, hinOrder.logbook, hinOrder.stored, hinOrder.last⟩, h.capacity,
      h.nonzero, ?_, trivial, Cleaner.noConfusion, h.kept⟩
    have hzero := h.nonzero
    rw [Overrun]
    dsimp only at hzero ⊢
    rw [hnext]
    omega

theorem write_sequence (batch : List BatchOp) (w : SSDBImpl) :
    w.ldb.sequence ≤ (LevelDB.Write batch w).2.ldb.sequence := by
  rw [LevelDB.Write]
  split_ifs
  · exact le_rfl
  · exact Nat.le_add_right _ _

theorem step_sequence (e : Event) (s : Session) :
    s.store.ldb.sequence ≤ (step ndebug e s).store.ldb.sequence := by
  cases e with
  | commit batch =>
    rw [step]
    split_ifs
    · exact le_rfl
    · exact (LogEvent.transact batch).step_sequence s.store
  | clean =>
    obtain ⟨w, c⟩ := s
    rw [step, Session.clean]
    cases c with
    | off | due | deleted | aborted => exact le_rfl
    | top | passed =>
      dsimp only
      split_ifs <;> exact le_rfl
    | deleting start stop =>
      dsimp only
      split_ifs
      · have hwrite := write_sequence (delBatch stop 1000 start).1 w
        rcases hresult : LevelDB.Write (delBatch stop 1000 start).1 w with ⟨_ | _, w'⟩
        · rw [hresult] at hwrite
          exact hwrite
        · rw [hresult] at hwrite
          exact hwrite
      · exact le_rfl

theorem Inv.step (h : Inv capacity log last s) {e : Event}
    (hseq : (step ndebug e s).store.ldb.sequence ≤ kMaxSequenceNumber) :
    Inv capacity log last (step ndebug e s) := by
  cases e with
  | commit batch =>
    rw [Session.step] at hseq ⊢
    split_ifs at hseq ⊢
    · exact h
    · exact h.commit rfl hseq
  | clean => exact h.clean (h.inOrder.last.trans ((step_sequence .clean s).trans hseq))

theorem Inv.run (h : Inv capacity log last s) {es : List Event}
    (hseq : (Trace.run (Session.step ndebug) es s).store.ldb.sequence ≤ kMaxSequenceNumber) :
    Inv capacity log last (Trace.run (Session.step ndebug) es s) := by
  have hbound := (Trace.along_le (fun s : Session => s.store.ldb.sequence) step_sequence es hseq).2
  exact hbound.invariant (fun e s hnext hs => hs.step hnext) h

def Logged (db : LevelDB) : Prop :=
  Logbook db.table ∧ ∀ n ∈ logSeqs db.table, n ≤ db.sequence

theorem load_capacity_ne_zero (ndebug : Bool) (conf : Config) :
    (Options.narrow (Options.load ndebug conf).binlogCapacity).toInt ≠ 0 := by
  rw [Options.load_capacity]
  split_ifs with hzero
  · cases ndebug <;> decide
  · exact fun h => hzero (Int32.toInt_inj.mp h)

theorem start_inv (conf : Config) {db : LevelDB} (hdb : Logged db)
    (hseq : db.sequence ≤ kMaxSequenceNumber) :
    Inv (Options.narrow (Options.load ndebug conf).binlogCapacity) (logSeqs db.table)
      (start ndebug conf db).store.binlogs.lastSeq.toNat
      (start ndebug conf db) := by
  obtain ⟨hlogbook, hcounted⟩ := hdb
  rw [kMaxSequenceNumber] at hseq
  have hroom (n : ℕ) (hn : n ∈ logSeqs db.table) : n < 2 ^ 64 - 1 := by
    have hle := hcounted n hn
    omega
  have hlast := new_last hlogbook hroom (Options.load ndebug conf).binlog
    (Options.narrow (Options.load ndebug conf).binlogCapacity)
  have hmin := new_min hlogbook (Options.load ndebug conf).binlog
    (Options.narrow (Options.load ndebug conf).binlogCapacity)
  have hstored : ∀ n ∈ logSeqs db.table,
      n ≤ (start ndebug conf db).store.binlogs.lastSeq.toNat := fun n hn => by
    rcases hlast with hgreatest | ⟨hnone, -⟩
    · exact hgreatest.2 hn
    · rw [hnone] at hn
      exact hn.elim
  refine ⟨⟨rfl, hlogbook, hstored, ?_⟩, rfl, load_capacity_ne_zero ndebug conf, .inl ?_, ?_, ?_,
    fun n hn _ hcame => ?_⟩
  · rcases hlast with hgreatest | ⟨-, hzero⟩
    · exact hcounted _ hgreatest.1
    · exact (congrArg UInt64.toNat hzero).trans_le (Nat.zero_le _)
  · rcases hmin with hleast | ⟨-, hlowest⟩
    · exact hstored _ hleast.1.1
    · exact (congrArg UInt64.toNat hlowest).trans_le (lowest_le _ _)
  · rw [start]
    dsimp only
    split_ifs <;> exact trivial
  · rw [start]
    dsimp only
    split_ifs <;> exact False.elim
  · exact hcame.resolve_right (not_lt.mpr hn)

theorem logged_empty : Logged .empty :=
  ⟨fun _ _ h => absurd h nofun, fun _ ⟨_, _, hx⟩ => absurd rfl hx⟩

theorem Left.logged {db : LevelDB} (h : Left ndebug db) (hseq : db.sequence ≤ kMaxSequenceNumber) :
    Logged db := by
  induction h with
  | empty => exact logged_empty
  | session h conf es ih =>
    have hstart := (Trace.along_le (fun s : Session => s.store.ldb.sequence) step_sequence es hseq).1
    have hinv := ((start_inv conf (ih hstart) hstart).run hseq).inOrder
    exact ⟨hinv.logbook, fun n hn => (hinv.stored n hn).trans hinv.last⟩

theorem delBatch_mem {stop x : UInt64} (count : ℕ) {start : UInt64}
    (h : .delete (Keys.encodeSeqKey x) ∈ (delBatch stop count start).1) : x.toNat ≤ stop.toNat := by
  induction count generalizing start with
  | zero => exact absurd h List.not_mem_nil
  | succ count ih =>
    rw [delBatch] at h
    split_ifs at h with hle
    · rcases List.mem_cons.mp h with hhead | hrest
      · rw [Keys.encodeSeqKey_inj.mp (BatchOp.delete.inj hhead)]
        exact UInt64.le_iff_toNat_le.mp hle
      · exact ih hrest
    · exact absurd h List.not_mem_nil

theorem effective_eq (ndebug : Bool) {conf : Config}
    (hcap : ¬Overrun (conf.getNum "replication.binlog.capacity")) :
    ((effective ndebug conf : ℕ) : ℤ) =
        (Options.narrow (Options.load ndebug conf).binlogCapacity).toInt ∨
      (Options.narrow (Options.load ndebug conf).binlogCapacity).toInt < -10000 := by
  have hdefault : 0 ≤ (Options.LOG_QUEUE_SIZE ndebug).toInt := by cases ndebug <;> decide
  have hsign := Int32.le_iff_toInt_le (x := conf.getNum "replication.binlog.capacity") (y := 0)
  rw [Int32.toInt_zero] at hsign
  rw [Overrun] at hcap
  rw [effective, Options.load_capacity]
  split_ifs with hle hzero hzero
  · exact .inl (Int.toNat_of_nonneg hdefault)
  · have hneg := hsign.mp hle
    have hne : (conf.getNum "replication.binlog.capacity").toInt ≠ 0 := fun h =>
      hzero (Int32.toInt_inj.mp h)
    omega
  · rw [hzero] at hle
    exact absurd Int32.le_rfl hle
  · exact .inl (Int.toNat_of_nonneg (not_le.mp (hsign.not.mp hle)).le)

theorem Inv.behind {conf : Config} {db : LevelDB}
    (hcap : ¬Overrun (conf.getNum "replication.binlog.capacity"))
    (h : Inv (Options.narrow (Options.load ndebug conf).binlogCapacity) (logSeqs db.table)
      (start ndebug conf db).store.binlogs.lastSeq.toNat s) : Behind ndebug conf db s := by
  have heff := effective_eq ndebug hcap
  rw [← h.capacity] at heff
  have hnot : ¬Overrun s.store.binlogs.capacity := by
    rw [Overrun]
    omega
  have hnonzero := h.nonzero
  refine ⟨⟨fun haborted => hnot (h.aborted haborted), fun _ => ?_⟩, fun n hn => ?_,
    fun n hn hnew hcame => h.kept n hn (by omega) hcame⟩
  · exact UInt64.le_iff_toNat_le.mpr (h.min.resolve_right hnot)
  · obtain ⟨w, c⟩ := s
    cases c with
    | deleting start stop =>
      obtain ⟨-, x, rfl, hx⟩ := hn
      have hle := delBatch_mem 1000 hx
      have hf := h.follows
      rw [Cleaner.Follows] at hf
      dsimp only at hf hnonzero heff ⊢
      rw [Overrun] at hnot
      omega
    | off | top | passed | due | deleted | aborted => exact hn.elim

/-- As long as the configured capacity is not one of -10000 to -1, the cleaner keeps behind the log
in every session over every database that sessions have left. -/
theorem cleaner_behind {conf : Config} {db : LevelDB} (hdb : Left ndebug db) (es : List Event)
    (hcap : ¬Overrun (conf.getNum "replication.binlog.capacity"))
    (hseq : (Trace.run (step ndebug) es (start ndebug conf db)).store.ldb.sequence ≤
      kMaxSequenceNumber) :
    Behind ndebug conf db (Trace.run (step ndebug) es (start ndebug conf db)) := by
  have hstart := (Trace.along_le (fun s : Session => s.store.ldb.sequence) step_sequence es hseq).1
  have hinv := (start_inv conf (hdb.logged hstart) hstart).run hseq
  exact hinv.behind hcap

theorem cleaner_behind_started :
    let conf : Config := ⟨fun _ => 1, fun _ => Strings.asBytes "Yes"⟩
    Behind false conf .empty (Trace.run (step false)
      [.clean, .commit ⟨[.log 1 1 [107]], fun _ hr => List.mem_singleton.mp hr ▸ trivial⟩, .clean]
      (start false conf .empty)) :=
  cleaner_behind .empty _ (by decide) (by decide +kernel)

theorem deleting_alone (ndebug : Bool) {stop : UInt64} (hstop : stop.toNat + 1 < 2 ^ 64) (fuel : ℕ)
    {start : UInt64} (hfuel : stop.toNat + 1 ≤ start.toNat + fuel) (w : SSDBImpl) :
    ∃ k, Trace.run (step ndebug) (List.replicate k .clean) ⟨w, .deleting start stop⟩ =
      ⟨(delRangeFrom stop fuel start w).2, .deleted stop⟩ := by
  induction fuel generalizing start w with
  | zero =>
    have hnot : ¬start ≤ stop := by
      rw [UInt64.le_iff_toNat_le]
      omega
    refine ⟨1, ?_⟩
    simp only [List.replicate, Trace.run_cons, Trace.run_nil, step, clean, if_neg hnot]
    rfl
  | succ fuel ih =>
    rcases em (start ≤ stop) with hle | hnot
    · have hnext := (delBatch_spec hstop 1000
        ((UInt64.le_iff_toNat_le.mp hle).trans (Nat.le_succ _)) w.ldb.table).1
      rw [UInt64.le_iff_toNat_le] at hle
      rcases hbatch : delBatch stop 1000 start with ⟨batch, next⟩
      rw [hbatch] at hnext
      dsimp only at hnext
      rw [← UInt64.le_iff_toNat_le] at hle
      rcases hwrite : LevelDB.Write batch w with ⟨_ | _, w'⟩
      · refine ⟨1, ?_⟩
        simp only [List.replicate, Trace.run_cons, Trace.run_nil, step, clean, if_pos hle, hbatch,
          hwrite, delRangeFrom, M.bind_apply]
        rfl
      · have hrest : stop.toNat + 1 ≤ next.toNat + fuel := by omega
        obtain ⟨k, hk⟩ := ih hrest w'
        refine ⟨k + 1, ?_⟩
        simp only [List.replicate, Trace.run_cons, step, clean, if_pos hle, hbatch, hwrite,
          delRangeFrom, M.bind_apply, if_true] at hk ⊢
        exact hk
    · refine ⟨1, ?_⟩
      simp only [List.replicate, Trace.run_cons, Trace.run_nil, step, clean, if_neg hnot, delRangeFrom]
      rfl

theorem turn_alone (ndebug : Bool) {w : SSDBImpl} (hmin : w.binlogs.minSeq ≤ w.binlogs.lastSeq)
    (hstop : w.binlogs.stop.toNat + 1 < 2 ^ 64) :
    ∃ k, Trace.run (step ndebug) (List.replicate k .clean) ⟨w, .top⟩ = ⟨(logClean w).2, .top⟩ := by
  have hassert : w.binlogs.lastSeq ≥ w.binlogs.minSeq ∨ ndebug = true := .inl hmin
  rcases em (w.binlogs.lastSeq - w.binlogs.minSeq < widen (w.binlogs.capacity + 10000)) with hidle | hdue
  · refine ⟨2, ?_⟩
    rw [logClean_idle fun hdue => UInt64.not_le.mpr hidle hdue.2]
    simp only [List.replicate, Trace.run_cons, Trace.run_nil, step, clean, if_pos hassert, if_pos hidle]
  · have hfuel : w.binlogs.stop.toNat + 1 ≤ w.binlogs.minSeq.toNat +
        (w.binlogs.stop.toNat + 1 - w.binlogs.minSeq.toNat) := by omega
    obtain ⟨k, hk⟩ := deleting_alone ndebug hstop _ hfuel w
    refine ⟨3 + (k + 1), ?_⟩
    have hrest : Trace.run (step ndebug) (List.replicate 3 .clean) ⟨w, .top⟩ =
        ⟨w, .deleting w.binlogs.minSeq w.binlogs.stop⟩ := by
      simp only [List.replicate, Trace.run_cons, Trace.run_nil, step, clean, if_pos hassert,
        if_neg hdue]
      rfl
    rw [List.replicate_add, List.replicate_add, Trace.run_append, hrest, Trace.run_append, hk]
    have hclean : logClean w = (do
        let _ ← delRange w.binlogs.minSeq w.binlogs.stop
        edit fun q => { q with minSeq := w.binlogs.stop + 1 }
        return true : M Bool) w := by
      rw [logClean, M.bind_apply, M.get_apply, if_neg (UInt64.not_lt.mpr hmin), if_neg hdue]
      rfl
    rw [hclean]
    rfl

theorem negative_capacity_aborts :
    let conf : Config := ⟨fun _ => -10000, fun _ => Strings.asBytes "yes"⟩
    ∃ es, ¬Behind false conf .empty (Trace.run (step false) es (start false conf .empty)) := by
  intro conf
  have hdue : (start false conf .empty).store.binlogs.Due := by decide +kernel
  have hquiet : (start false conf .empty).store.faults.write = [] := rfl
  obtain ⟨db, hturn, -⟩ := logClean_due hdue (by decide +kernel) hquiet
  obtain ⟨k, hk⟩ := turn_alone false hdue.1 (by decide +kernel)
  rw [hturn] at hk
  refine ⟨List.replicate k .clean ++ [.clean], fun hbehind => hbehind.asserted.1 ?_⟩
  have hstart : (start false conf .empty).cleaner = .top := by decide +kernel
  have hsplit : start false conf .empty = ⟨(start false conf .empty).store, .top⟩ := by rw [← hstart]
  have hpast : ¬((start false conf .empty).store.binlogs.lastSeq ≥
      (start false conf .empty).store.binlogs.stop + 1 ∨ false = true) := by decide +kernel
  rw [Trace.run_append, hsplit, hk]
  simp only [Trace.run_cons, Trace.run_nil, step, clean]
  rw [if_neg hpast]

end Session
