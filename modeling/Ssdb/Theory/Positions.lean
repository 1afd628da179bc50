import Ssdb.Library.Trace
import Ssdb.Store.Recovery
import Ssdb.Theory.Completeness

namespace SSDBImpl
open Binlogs

def wipe : M Int := transaction do flushdbFrom ((← MonadState.get).ldb.table.size + 1)

theorem flushdb_phases : flushdb = do
    let ret ← wipe
    let _ ← flush
    return ret := rfl

theorem flushRound_spec (es : List (Bytes × Bytes)) {rest : List (Bytes × Bytes)} {w : SSDBImpl}
    (hw : w.faults.write = []) (h : w.ldb.table.entries = es ++ rest) :
    ∃ db, flushRound es w = (true, { w with ldb := db }) ∧ db.table.entries = rest ∧
      w.ldb.sequence ≤ db.sequence := by
  induction es generalizing w with
  | nil => exact ⟨w.ldb, rfl, h, le_rfl⟩
  | cons e es ih =>
    have hfirst : (w.ldb.write [.delete e.1]).table.entries = es ++ rest := OrdMap.erase_first h
    obtain ⟨db, hrun, hrest, hseq⟩ := ih (w := { w with ldb := w.ldb.write [.delete e.1] }) hw hfirst
    refine ⟨db, ?_, hrest, (Nat.le_add_right _ _).trans hseq⟩
    rw [flushRound, M.bind_apply, Write_apply _ hw, if_pos rfl, hrun]

theorem flushdbFrom_succ (fuel : ℕ) (w : SSDBImpl) : flushdbFrom (fuel + 1) w =
    (flushRound (w.ldb.table.entries.take 10000) >>= fun ok =>
      if ok then
        if w.ldb.table.entries.length < 10000 then return 0 else flushdbFrom fuel
      else return -1 : M Int) w := rfl

theorem flushdbFrom_spec (fuel : ℕ) {w : SSDBImpl} (hw : w.faults.write = [])
    (hfuel : w.ldb.table.entries.length < fuel) :
    ∃ db, (flushdbFrom fuel w).2 = { w with ldb := db } ∧ db.table.entries = [] ∧
      w.ldb.sequence ≤ db.sequence := by
  induction fuel generalizing w with
  | zero => exact absurd hfuel (Nat.not_lt_zero _)
  | succ fuel ih =>
    obtain ⟨db, hround, hrest, hseq⟩ :=
      flushRound_spec (w.ldb.table.entries.take 10000) hw (List.take_append_drop _ _).symm
    rw [flushdbFrom_succ, M.bind_apply, hround, if_pos rfl]
    rcases lt_or_ge w.ldb.table.entries.length 10000 with hlen | hlen
    · rw [if_pos hlen]
      exact ⟨db, rfl, hrest.trans (List.drop_eq_nil_of_le hlen.le), hseq⟩
    · have hlength : db.table.entries.length < fuel := by
        rw [hrest, List.length_drop]
        omega
      obtain ⟨db', hrun, hnone, hseq'⟩ := ih (w := { w with ldb := db }) hw hlength
      rw [if_neg (not_lt.mpr hlen)]
      exact ⟨db', hrun, hnone, hseq.trans hseq'⟩

theorem wipe_spec {w : SSDBImpl} (hw : w.faults.write = []) :
    ∃ db, (wipe w).2 = { w with
        ldb := db
        binlogs := { w.binlogs with tranSeq := 0, batch := [] } } ∧
      db.table.entries = [] ∧ w.ldb.sequence ≤ db.sequence := by
  obtain ⟨db, hrun, hnone, hseq⟩ := flushdbFrom_spec (w.ldb.table.size + 1)
    (w := { w with binlogs := w.binlogs.begin }) hw (Nat.lt_succ_self _)
  have hwipe : (wipe w).2 = { (flushdbFrom (w.ldb.table.size + 1)
      { w with binlogs := w.binlogs.begin }).2 with
        binlogs := (flushdbFrom (w.ldb.table.size + 1)
          { w with binlogs := w.binlogs.begin }).2.binlogs.rollback } := rfl
  refine ⟨db, ?_, hnone, hseq⟩
  rw [hwipe, hrun]
  rfl

abbrev Batch := {recs : List Rec // ∀ r ∈ recs, r.OffLog}

end SSDBImpl

open SSDBImpl

inductive LogEvent where
  | transact (batch : Batch)
  | clean
  | flushdb
  | reopen

namespace LogEvent

def step : LogEvent → SSDBImpl → SSDBImpl
  | transact batch, w => ((Plan.commit batch.1 true false).run w).2
  | clean, w => (Binlogs.logClean w).2
  | flushdb, w => (SSDBImpl.flushdb w).2
  | reopen, w => w.reopened

def putSeq : BatchOp → Option ℕ
  | .put key _ =>
    if key.head? = some DataType.SYNCLOG then some (Keys.decodeSeqKey key).toNat else none
  | .delete _ => none

def added : LogEvent → SSDBImpl → List ℕ
  | transact batch, w => (w.drafted batch.1).batch.filterMap putSeq
  | _, _ => []

end LogEvent

namespace SSDBImpl

structure Logging (w : SSDBImpl) : Prop where
  enabled : w.binlogs.enabled = true
  faults : w.faults = Faults.none
  logbook : Logbook w.ldb.table
  stored : ∀ n ∈ logSeqs w.ldb.table, n ≤ w.binlogs.lastSeq.toNat
  last : w.binlogs.lastSeq.toNat ≤ w.ldb.sequence

theorem logging_fresh (capacity : Int32) : Logging (fresh true capacity) where
  enabled := rfl
  faults := rfl
  logbook _ _ h := absurd h (by simp [fresh, LevelDB.empty])
  stored n hn := by
    obtain ⟨x, -, hx⟩ := hn
    exact absurd rfl hx
  last := le_rfl

end SSDBImpl

namespace LogEvent

theorem step_sequence (e : LogEvent) (w : SSDBImpl) : w.ldb.sequence ≤ (e.step w).ldb.sequence := by
  have hkept := sequence_kept w.ldb.sequence
  cases e with
  | transact batch => exact Plan.run_sequence w _
  | clean =>
    have hclean : Keeps (fun w' => w.ldb.sequence ≤ w'.ldb.sequence) Binlogs.logClean :=
      .state fun w' h => Keeps.ite (fun _ => .pure _) (fun _ => .ite (fun _ => .pure _) fun _ =>
        .bind (keeps_delRangeFrom (hkept.mono fun _ _ => trivial) _ _ _) fun _ =>
          .bind (fun _ h => h) fun _ => .pure _) w' h
    exact hclean w le_rfl
  | flushdb => exact keeps_flushdb (hkept.mono fun _ _ => trivial) w le_rfl
  | reopen => exact le_rfl

end LogEvent

namespace SSDBImpl
namespace Logging
variable {w : SSDBImpl} (h : Logging w)
include h

theorem quiet : w.faults.write = [] := congrArg Faults.write h.faults

theorem transact_eq (batch : Batch) : (LogEvent.transact batch).step w = w.committed batch.1 := by
  rw [LogEvent.step, Plan.run_commit w batch.1 true false (by simp [h.quiet])]

theorem transact {batch : Batch}
    (hseq : ((LogEvent.transact batch).step w).ldb.sequence ≤ kMaxSequenceNumber) :
    Logging ((LogEvent.transact batch).step w) ∧
      ((LogEvent.transact batch).step w).binlogs.lastSeq.toNat =
        w.binlogs.lastSeq.toNat + (Rec.entries batch.1).length ∧
      logSeqs ((LogEvent.transact batch).step w).ldb.table = logSeqs w.ldb.table ∪
        Set.Ioc w.binlogs.lastSeq.toNat (w.binlogs.lastSeq.toNat + (Rec.entries batch.1).length) ∧
      ((LogEvent.transact batch).step w).binlogs.minSeq = w.binlogs.minSeq ∧
      ((LogEvent.transact batch).step w).binlogs.capacity = w.binlogs.capacity := by
  rw [h.transact_eq] at hseq ⊢
  obtain ⟨htable, -, hgrown⟩ := committed_numbered batch.1 h.enabled
  obtain ⟨hroom, hlast⟩ := committed_room h.enabled h.last hseq
  obtain ⟨hmin, -, hcapacity, henabled⟩ := BinlogQueue.recordAll_fixed batch.1 w.binlogs.begin
  have hseqs := BinlogQueue.logSeqs_numbered batch.2 hroom w.ldb.table
  have hlen : (Rec.entries batch.1).length ≤ batch.1.length := List.length_filterMap_le _ _
  have hold := h.last
  rw [← htable] at hseqs
  refine ⟨⟨henabled.trans h.enabled, ?_, ?_, fun n hn => ?_, by omega⟩, hlast, hseqs, hmin, hcapacity⟩
  · rw [committed_faults, h.faults]
    rfl
  · rw [htable]
    exact BinlogQueue.logbook_numbered batch.2 hroom h.logbook
  · rw [hseqs] at hn
    rw [hlast]
    rcases hn with hn | hn
    · exact (h.stored n hn).trans (Nat.le_add_right _ _)
    · exact hn.2

omit h in
theorem clean_idle (hdue : ¬w.binlogs.Due) : LogEvent.clean.step w = w := Binlogs.logClean_idle hdue

theorem clean_due (hdue : w.binlogs.Due) (hseq : w.ldb.sequence ≤ kMaxSequenceNumber) :
    Logging (LogEvent.clean.step w) ∧
      (LogEvent.clean.step w).binlogs = { w.binlogs with minSeq := w.binlogs.stop + 1 } ∧
      logSeqs (LogEvent.clean.step w).ldb.table =
        logSeqs w.ldb.table \ Set.Icc w.binlogs.minSeq.toNat w.binlogs.stop.toNat := by
  obtain ⟨db, hrun, hcleared⟩ := Binlogs.logClean_due hdue (h.last.trans hseq) h.quiet
  rw [LogEvent.step, hrun]
  refine ⟨⟨h.enabled, h.faults, hcleared.logbook h.logbook, fun n hn => ?_,
    h.last.trans hcleared.sequence⟩, rfl, hcleared.seqs⟩
  rw [hcleared.seqs] at hn
  exact h.stored n hn.1

theorem clean (hseq : w.ldb.sequence ≤ kMaxSequenceNumber) : Logging (LogEvent.clean.step w) ∧
    (LogEvent.clean.step w).binlogs.lastSeq = w.binlogs.lastSeq := by
  rcases em w.binlogs.Due with hdue | hdue
  · obtain ⟨hlog, hbinlogs, -⟩ := h.clean_due hdue hseq
    exact ⟨hlog, by rw [hbinlogs]⟩
  · rw [clean_idle hdue]
    exact ⟨h, rfl⟩

theorem wipe : Logging (SSDBImpl.wipe w).2 ∧
    (SSDBImpl.wipe w).2.binlogs = { w.binlogs with tranSeq := 0, batch := [] } ∧
      logSeqs (SSDBImpl.wipe w).2.ldb.table = ∅ := by
  obtain ⟨db, hwipe, hnone, hgrown⟩ := wipe_spec h.quiet
  have hget (key : Bytes) : db.table.get key = none := by
    rw [OrdMap.get, hnone]
    rfl
  have hseqs : logSeqs db.table = ∅ := Set.eq_empty_iff_forall_notMem.mpr fun n hn => by
    obtain ⟨x, -, hx⟩ := hn
    exact hx (hget _)
  rw [hwipe]
  refine ⟨⟨h.enabled, h.faults, fun key value hvalue => ?_, fun n hn => ?_, h.last.trans hgrown⟩, rfl,
    hseqs⟩
  · rw [hget] at hvalue
    cases hvalue
  · rw [hseqs] at hn
    exact hn.elim

theorem flush (hlast : w.binlogs.lastSeq.toNat ≤ kMaxSequenceNumber) :
    Logging (Binlogs.flush w).2 ∧ (Binlogs.flush w).2.binlogs = w.binlogs ∧
      logSeqs (Binlogs.flush w).2.ldb.table =
        logSeqs w.ldb.table \ Set.Icc w.binlogs.minSeq.toNat w.binlogs.lastSeq.toNat := by
  rw [kMaxSequenceNumber] at hlast
  obtain ⟨db, hflush, hcleared⟩ := Binlogs.delRange_spec w.binlogs.minSeq
    (by omega : w.binlogs.lastSeq.toNat + 1 < 2 ^ 64) h.quiet
  have hrun : (Binlogs.flush w).2 = { w with ldb := db } := hflush
  rw [hrun]
  refine ⟨⟨h.enabled, h.faults, hcleared.logbook h.logbook, fun n hn => ?_,
    h.last.trans hcleared.sequence⟩, rfl, hcleared.seqs⟩
  rw [hcleared.seqs] at hn
  exact h.stored n hn.1

theorem flushdb (hseq : w.ldb.sequence ≤ kMaxSequenceNumber) : Logging (LogEvent.flushdb.step w) ∧
    (LogEvent.flushdb.step w).binlogs.lastSeq = w.binlogs.lastSeq ∧
      logSeqs (LogEvent.flushdb.step w).ldb.table = ∅ := by
  obtain ⟨hwiped, hbinlogs, hnone⟩ := h.wipe
  have hlast : (SSDBImpl.wipe w).2.binlogs.lastSeq = w.binlogs.lastSeq := by rw [hbinlogs]
  obtain ⟨hflushed, hsame, hseqs⟩ := hwiped.flush (by rw [hlast]; exact h.last.trans hseq)
  have hrun : LogEvent.flushdb.step w = (Binlogs.flush (SSDBImpl.wipe w).2).2 := rfl
  rw [hrun, hsame, hlast, hseqs, hnone]
  exact ⟨hflushed, rfl, Set.empty_sdiff _⟩

theorem reopen (hseq : w.ldb.sequence ≤ kMaxSequenceNumber) : Logging (LogEvent.reopen.step w) ∧
    (IsGreatest (logSeqs w.ldb.table) (LogEvent.reopen.step w).binlogs.lastSeq.toNat ∨
      logSeqs w.ldb.table = ∅ ∧ (LogEvent.reopen.step w).binlogs.lastSeq = 0) := by
  have hlast := h.last.trans hseq
  rw [kMaxSequenceNumber] at hlast
  have hroom (n : ℕ) (hn : n ∈ logSeqs w.ldb.table) : n < 2 ^ 64 - 1 := by
    have hle := h.stored n hn
    omega
  have hnew := BinlogQueue.new_last h.logbook hroom w.binlogs.enabled w.binlogs.capacity
  refine ⟨⟨h.enabled, h.faults, h.logbook, fun n hn => ?_, ?_⟩, hnew⟩
  · rcases hnew with hnew | ⟨hnone, -⟩
    · exact hnew.2 hn
    · change n ∈ logSeqs w.ldb.table at hn
      rw [hnone] at hn
      exact hn.elim
  · rcases hnew with hnew | ⟨-, hzero⟩
    · exact (h.stored _ hnew.1).trans h.last
    · change (BinlogQueue.new w.ldb w.binlogs.enabled w.binlogs.capacity).lastSeq.toNat ≤ _
      rw [hzero]
      exact Nat.zero_le _

theorem step {e : LogEvent} (hseq : (e.step w).ldb.sequence ≤ kMaxSequenceNumber) :
    Logging (e.step w) := by
  have hold := (e.step_sequence w).trans hseq
  cases e with
  | transact batch => exact (h.transact hseq).1
  | clean => exact (h.clean hold).1
  | flushdb => exact (h.flushdb hold).1
  | reopen => exact (h.reopen hold).1

end Logging
end SSDBImpl

theorem BinlogQueue.numbered_putSeq {recs : List Rec} (hoff : ∀ r ∈ recs, r.OffLog) {seq : UInt64}
    (hroom : seq.toNat + (Rec.entries recs).length < 2 ^ 64) :
    (numbered seq recs).filterMap LogEvent.putSeq =
      List.range' (seq.toNat + 1) (Rec.entries recs).length := by
  induction recs generalizing seq with
  | nil => rfl
  | cons r recs ih =>
    have hrest := fun r' h' => hoff r' (List.mem_cons_of_mem r h')
    have hfirst := hoff r (by simp)
    cases r with
    | put key value =>
      have hnone : LogEvent.putSeq (.put key value) = none := if_neg hfirst
      rw [numbered, List.filterMap_cons_none hnone, ih hrest hroom, Rec.entries_put]
    | delete key =>
      rw [numbered, List.filterMap_cons_none rfl, ih hrest hroom, Rec.entries_delete]
    | log type cmd key =>
      rw [Rec.entries_log, List.length_cons] at hroom
      have hnext : (seq + 1).toNat = seq.toNat + 1 := by
        rw [UInt64.toNat_add]
        exact Nat.mod_eq_of_lt (by change _ + 1 < _; omega)
      have hsome : LogEvent.putSeq (.put (Keys.encodeSeqKey (seq + 1))
          (Binlog (seq + 1) type cmd key)) = some (seq.toNat + 1) := by
        have hhead : (Keys.encodeSeqKey (seq + 1)).head? = some DataType.SYNCLOG := rfl
        rw [LogEvent.putSeq, if_pos hhead, Keys.decodeSeqKey_encode, hnext]
      rw [numbered, List.filterMap_cons_some hsome, ih hrest (by omega), hnext, Rec.entries_log,
        List.length_cons, List.range'_succ]

namespace LogEvent
variable {w : SSDBImpl}

theorem added_transact (h : Logging w) {batch : Batch}
    (hseq : ((transact batch).step w).ldb.sequence ≤ kMaxSequenceNumber) :
    (transact batch).added w =
      List.range' (w.binlogs.lastSeq.toNat + 1) (Rec.entries batch.1).length := by
  rw [h.transact_eq] at hseq
  have hroom := (committed_room h.enabled h.last hseq).1
  have hbatch := (BinlogQueue.recordAll_numbered batch.1 (q := w.binlogs.begin) h.enabled).1
  rw [added, drafted, hbatch]
  exact BinlogQueue.numbered_putSeq batch.2 hroom

end LogEvent

theorem Call.exec_event {c : Call} (hc : c.transactional = true) {w : SSDBImpl} (h : Logging w) :
    (∃ batch : Batch, (c.exec .none w).2 = (LogEvent.transact batch).step w) ∨
      (c.exec .none w).2.ldb = w.ldb ∧
        (c.exec .none w).2.binlogs.lastSeq = w.binlogs.lastSeq := by
  obtain ⟨C, hC⟩ := (transactional_iff c).mp hc
  have hw : { w with faults := Faults.none } = w := by rw [← h.faults]
  have hrun : c.run w = ((c.inquiry w.ldb).answered w.ldb.fetch).run w := by
    rw [run_play hc, Inquiry.play_answered _ (congrArg Faults.get h.faults)]
  have hwithin : ((c.inquiry w.ldb).answered w.ldb.fetch).Within C.Writes := by
    have hevery : Plan.Within C.Writes (((c.inquiry w.ldb).resolve w.ldb.fetch .failed []).1) :=
      Inquiry.resolve_every (inquiry_within hC w.ldb) []
    rwa [Inquiry.resolve_nil] at hevery
  have hexec : (c.exec .none w).2 =
      { (((c.inquiry w.ldb).answered w.ldb.fetch).run w).2 with faults := .none } := by
    rw [exec, hw, hrun]
    rfl
  rw [hexec]
  cases hp : (c.inquiry w.ldb).answered w.ldb.fetch with
  | reject r => exact .inr ⟨rfl, rfl⟩
  | abort recs r => exact .inr ⟨rfl, (BinlogQueue.recordAll_fixed recs w.binlogs.begin).2.1⟩
  | commit recs ok fail =>
    rw [hp] at hwithin
    have hoff (r : Rec) (hr : r ∈ recs) : r.OffLog := by
      have hout (key : Bytes) (ho : C.Owns key) : key.head? ≠ some DataType.SYNCLOG := by
        obtain ⟨b, hb, hkey⟩ := Container.owns_head ho
        intro hlog
        obtain rfl : b = DataType.SYNCLOG := Option.some.inj (hkey.symm.trans hlog)
        exact C.heads_data hb
      cases r with
      | put key value => exact hout key (hwithin _ hr).1
      | delete key => exact hout key (hwithin _ hr)
      | log type cmd key => trivial
    refine .inl ⟨⟨recs, hoff⟩, ?_⟩
    rw [h.transact_eq, Plan.run_commit w recs ok fail (by simp [h.quiet])]
    have hfaults : (w.committed recs).faults = .none := by
      rw [committed_faults, h.faults]
      rfl
    rw [← hfaults]

namespace LogEvent

def Anchored (e : LogEvent) (w : SSDBImpl) : Prop :=
  match e with
  | reopen => w.binlogs.lastSeq = 0 ∨ w.binlogs.lastSeq.toNat ∈ logSeqs w.ldb.table
  | _ => True

variable {w : SSDBImpl} {e : LogEvent}

theorem anchored_step (h : Logging w) (hseq : (e.step w).ldb.sequence ≤ kMaxSequenceNumber)
    (ha : e.Anchored w) : w.binlogs.lastSeq.toNat ≤ (e.step w).binlogs.lastSeq.toNat ∧
      (e.added w).Pairwise (· < ·) ∧ ∀ n ∈ e.added w,
        w.binlogs.lastSeq.toNat < n ∧ n ≤ (e.step w).binlogs.lastSeq.toNat := by
  have hold := (e.step_sequence w).trans hseq
  cases e with
  | transact batch =>
    obtain ⟨-, hlast, -⟩ := h.transact hseq
    rw [added_transact h hseq, hlast]
    refine ⟨Nat.le_add_right _ _, List.pairwise_lt_range', fun n hn => ?_⟩
    have hrange := List.mem_range'_1.mp hn
    omega
  | clean =>
    rw [(h.clean hold).2]
    exact ⟨le_rfl, .nil, fun n hn => absurd hn List.not_mem_nil⟩
  | flushdb =>
    rw [(h.flushdb hold).2.1]
    exact ⟨le_rfl, .nil, fun n hn => absurd hn List.not_mem_nil⟩
  | reopen =>
    refine ⟨?_, .nil, fun n hn => absurd hn List.not_mem_nil⟩
    rcases ha with hzero | hstored
    · rw [hzero]
      exact Nat.zero_le _
    · rcases (h.reopen hold).2 with hgreatest | ⟨hnone, -⟩
      · exact hgreatest.2 hstored
      · rw [hnone] at hstored
        exact hstored.elim

theorem last_added (h : Logging w) (hseq : (e.step w).ldb.sequence ≤ kMaxSequenceNumber)
    (ha : e.Anchored w) : (e.step w).binlogs.lastSeq.toNat = w.binlogs.lastSeq.toNat ∨
      (e.step w).binlogs.lastSeq.toNat ∈ e.added w := by
  have hold := (e.step_sequence w).trans hseq
  cases e with
  | transact batch =>
    obtain ⟨-, hlast, -⟩ := h.transact hseq
    rw [added_transact h hseq, hlast, List.mem_range'_1]
    omega
  | clean => exact .inl (by rw [(h.clean hold).2])
  | flushdb => exact .inl (by rw [(h.flushdb hold).2.1])
  | reopen =>
    have hback := (anchored_step h hseq ha).1
    rcases (h.reopen hold).2 with hgreatest | ⟨-, hzero⟩
    · exact .inl (le_antisymm (h.stored _ hgreatest.1) hback)
    · rw [hzero] at hback ⊢
      exact .inl (le_antisymm (Nat.zero_le _) hback)

open Trace in
/-- As long as no restart comes when the record of the last number is gone, every record added is
numbered after all before it; and the first one added after such a restart is not. -/
theorem positions_increase (capacity : Int32) (es : List LogEvent) :
    let w := fresh true capacity
    (run step es w).ldb.sequence ≤ kMaxSequenceNumber → Along step Anchored es w →
      (outputs step added es w).Pairwise (· < ·) ∧
        ∀ batch : Batch, Rec.entries batch.1 ≠ [] → ¬reopen.Anchored (run step es w) →
          let es' := es ++ [reopen, transact batch]
          (run step es' w).ldb.sequence ≤ kMaxSequenceNumber →
            ¬(outputs step added es' w).Pairwise (· < ·) := by
  intro w hseq hanchored
  have hbound := (along_le (fun w => w.ldb.sequence) step_sequence es hseq).2.and hanchored
  have hrun : Logging (run step es w) :=
    hbound.invariant (fun e w he h => h.step he.1) (logging_fresh capacity)
  obtain ⟨hsorted, -, -⟩ := outputs_increasing (fun w => w.binlogs.lastSeq.toNat) hbound
    (logging_fresh capacity) fun e w he h => ⟨h.step he.1, anchored_step h he.1 he.2⟩
  refine ⟨hsorted, ?_⟩
  intro batch hbatch hlost es' hseq' hsorted'
  have hlast := mark_outputs (fun w => w.binlogs.lastSeq.toNat) hbound (logging_fresh capacity)
    fun e w he h => ⟨h.step he.1, last_added h he.1 he.2⟩
  rw [Anchored, not_or] at hlost
  have hmem : (run step es w).binlogs.lastSeq.toNat ∈ outputs step added es w :=
    hlast.resolve_left fun hzero => hlost.1 (UInt64.toNat_inj.mp hzero)
  have hback := hrun.reopen hseq
  rw [run_append, run_cons, run_cons, run_nil] at hseq'
  have hadded := added_transact hback.1 hseq'
  have hlower : (reopen.step (run step es w)).binlogs.lastSeq.toNat <
      (run step es w).binlogs.lastSeq.toNat := by
    rcases hback.2 with hgreatest | ⟨-, hzero⟩
    · refine lt_of_le_of_ne (hrun.stored _ hgreatest.1) fun heq => ?_
      exact hlost.2 (heq ▸ hgreatest.1)
    · rw [hzero]
      exact Nat.pos_of_ne_zero fun h => hlost.1 (UInt64.toNat_inj.mp h)
  rw [outputs_append, outputs, outputs, outputs, List.append_nil] at hsorted'
  have hreused : (reopen.step (run step es w)).binlogs.lastSeq.toNat + 1 ∈
      (transact batch).added (reopen.step (run step es w)) := by
    have hpos := List.length_pos_iff.mpr hbatch
    rw [hadded, List.mem_range'_1]
    omega
  have hlt := (List.pairwise_append.mp hsorted').2.2 _ hmem _ hreused
  omega

def setBatch (key val : Bytes) (logType : Byte) : Batch :=
  ⟨kvRecs key val logType, (kvRecs_paired key val logType).offLog⟩

open Trace in
theorem positions_increase_set :
    let w := fresh true 1000
    let es := [transact (setBatch [107] [49] 1), transact (setBatch [107] [50] 1)]
    (outputs step added es w).Pairwise (· < ·) :=
  (positions_increase 1000 [transact (setBatch [107] [49] 1), transact (setBatch [107] [50] 1)]
    (by decide) ⟨trivial, trivial, trivial⟩).1

open Trace in
theorem flushed_position_reused :
    let ns := outputs step added [transact (setBatch [107] [49] 1), flushdb, reopen,
      transact (setBatch [107] [50] 1)] (fresh true 1000)
    ns = [1, 1] ∧ ¬ns.Pairwise (· < ·) := by
  decide

end LogEvent
