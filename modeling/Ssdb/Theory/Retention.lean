import Ssdb.Theory.Positions

namespace SSDBImpl
open LogEvent

def Contiguous (w : SSDBImpl) : Prop :=
  logSeqs w.ldb.table = ∅ ∨ ∃ first ≤ w.binlogs.lastSeq.toNat,
    logSeqs w.ldb.table = Set.Icc first w.binlogs.lastSeq.toNat

def Newest (w : SSDBImpl) : Prop :=
  w.binlogs.capacity.toInt ≤ w.binlogs.lastSeq.toNat ∧ logSeqs w.ldb.table =
    Set.Ioc (w.binlogs.lastSeq.toNat - w.binlogs.capacity.toInt.toNat) w.binlogs.lastSeq.toNat

structure Retained (w : SSDBImpl) : Prop where
  logging : Logging w
  capacity : 1 ≤ w.binlogs.capacity.toInt
  min : w.binlogs.minSeq.toNat ≤ w.binlogs.lastSeq.toNat
  tail : ∃ low ≤ w.binlogs.minSeq.toNat,
    logSeqs w.ldb.table = Set.Ioc low w.binlogs.lastSeq.toNat

theorem Retained.contiguous {w : SSDBImpl} (h : Retained w) : Contiguous w := by
  obtain ⟨low, hlow, hseqs⟩ := h.tail
  have hmin := h.min
  rcases hlow.trans hmin |>.eq_or_lt with heq | hlt
  · exact .inl (by rw [hseqs, heq, Set.Ioc_self])
  · refine .inr ⟨low + 1, hlt, ?_⟩
    rw [hseqs]
    ext n
    simp only [Set.mem_Ioc, Set.mem_Icc]
    omega

theorem retained_fresh {capacity : Int32} (h : 1 ≤ capacity.toInt) :
    Retained (fresh true capacity) where
  logging := logging_fresh capacity
  capacity := h
  min := le_rfl
  tail := by
    have hnone : logSeqs (fresh true capacity).ldb.table = ∅ :=
      Set.eq_empty_iff_forall_notMem.mpr fun n ⟨_, _, hx⟩ => hx rfl
    exact ⟨0, le_rfl, hnone.trans (Set.Ioc_self 0).symm⟩

namespace Retained
variable {w : SSDBImpl} (h : Retained w)
include h

theorem transact {batch : Batch}
    (hseq : ((LogEvent.transact batch).step w).ldb.sequence ≤ kMaxSequenceNumber) :
    Retained ((LogEvent.transact batch).step w) := by
  obtain ⟨hlogging, hlast, hseqs, hmin, hcapacity⟩ := h.logging.transact hseq
  obtain ⟨low, hlow, hold⟩ := h.tail
  have hbelow := h.min
  refine ⟨hlogging, by rw [hcapacity]; exact h.capacity, by rw [hmin, hlast]; omega, low, ?_, ?_⟩
  · rw [hmin]
    exact hlow
  · rw [hseqs, hold, hlast]
    ext n
    simp only [Set.mem_union, Set.mem_Ioc]
    omega

theorem due (hdue : w.binlogs.Due) (hseq : w.ldb.sequence ≤ kMaxSequenceNumber) :
    w.binlogs.minSeq.toNat ≤ w.binlogs.stop.toNat ∧
      w.binlogs.stop.toNat + w.binlogs.capacity.toInt.toNat = w.binlogs.lastSeq.toNat ∧
        (w.binlogs.stop + 1).toNat = w.binlogs.stop.toNat + 1 := by
  have hlast := h.logging.last.trans hseq
  have hcapacity := h.capacity
  have hroom := (BinlogQueue.due_room hdue hlast).2
  have hstop := BinlogQueue.due_stop hdue hlast
  rw [kMaxSequenceNumber] at hlast
  refine ⟨by omega, by omega, ?_⟩
  rw [UInt64.toNat_add]
  exact Nat.mod_eq_of_lt (by change _ + 1 < _; omega)

theorem clean (hdue : w.binlogs.Due) (hseq : w.ldb.sequence ≤ kMaxSequenceNumber)
    (hclear : ∀ n ∈ logSeqs w.ldb.table, w.binlogs.minSeq.toNat ≤ n) :
    Retained (LogEvent.clean.step w) ∧ Newest (LogEvent.clean.step w) := by
  obtain ⟨hlogging, hbinlogs, hseqs⟩ := h.logging.clean_due hdue hseq
  obtain ⟨hmin, hstop, hnext⟩ := h.due hdue hseq
  obtain ⟨low, hlow, hold⟩ := h.tail
  have hcapacity := h.capacity
  have hleft : logSeqs (LogEvent.clean.step w).ldb.table =
      Set.Ioc w.binlogs.stop.toNat w.binlogs.lastSeq.toNat := by
    rw [hseqs]
    ext n
    constructor
    · rintro ⟨hn, hout⟩
      have hge := hclear n hn
      rw [hold] at hn
      rw [Set.mem_Icc] at hout
      exact ⟨by omega, hn.2⟩
    · intro hn
      have hlow' := hn.1
      refine ⟨hold ▸ ⟨by omega, hn.2⟩, fun hin => ?_⟩
      exact absurd hin.2 (not_le.mpr hn.1)
  constructor
  · refine ⟨hlogging, by rw [hbinlogs]; exact hcapacity, ?_, w.binlogs.stop.toNat, ?_, ?_⟩
    · rw [hbinlogs]
      simp only [hnext]
      omega
    · rw [hbinlogs]
      simp only [hnext]
      omega
    · rw [hleft, hbinlogs]
  · refine ⟨by rw [hbinlogs]; simp only; omega, ?_⟩
    rw [hleft, hbinlogs]
    congr 1
    simp only
    omega

theorem clean_orphaned (hdue : w.binlogs.Due) (hseq : w.ldb.sequence ≤ kMaxSequenceNumber) {n : ℕ}
    (hn : n ∈ logSeqs w.ldb.table) (hlt : n < w.binlogs.minSeq.toNat) :
    ¬Newest (LogEvent.clean.step w) := by
  obtain ⟨-, hbinlogs, hseqs⟩ := h.logging.clean_due hdue hseq
  obtain ⟨hmin, hstop, -⟩ := h.due hdue hseq
  rintro ⟨-, hnewest⟩
  have hleft : n ∈ logSeqs (LogEvent.clean.step w).ldb.table := by
    rw [hseqs]
    exact ⟨hn, fun hin => absurd hin.1 (not_le.mpr hlt)⟩
  rw [hnewest, hbinlogs] at hleft
  have hlow : w.binlogs.lastSeq.toNat - w.binlogs.capacity.toInt.toNat < n := hleft.1
  omega

theorem reopen_min :
    IsLeast {n | n ∈ logSeqs w.ldb.table ∧ (LogEvent.reopen.step w).binlogs.lastSeq.toNat -
        w.binlogs.capacity.toInt.toNat ≤ n} (LogEvent.reopen.step w).binlogs.minSeq.toNat ∨
      (∀ n ∈ logSeqs w.ldb.table, n <
        (LogEvent.reopen.step w).binlogs.lastSeq.toNat - w.binlogs.capacity.toInt.toNat) ∧
        (LogEvent.reopen.step w).binlogs.minSeq.toNat =
          (LogEvent.reopen.step w).binlogs.lastSeq.toNat - w.binlogs.capacity.toInt.toNat := by
  have hcapacity := h.capacity
  have hmin := BinlogQueue.new_min h.logging.logbook w.binlogs.enabled w.binlogs.capacity
  have hlowest := BinlogQueue.lowest_toNat (by omega : 0 ≤ w.binlogs.capacity.toInt)
    (LogEvent.reopen.step w).binlogs.lastSeq
  rw [← hlowest]
  exact hmin.imp id fun h' => ⟨h'.1, congrArg UInt64.toNat h'.2⟩

theorem reopen_stored (hseq : w.ldb.sequence ≤ kMaxSequenceNumber) {low : ℕ}
    (hlow : low < w.binlogs.lastSeq.toNat)
    (hold : logSeqs w.ldb.table = Set.Ioc low w.binlogs.lastSeq.toNat) :
    (LogEvent.reopen.step w).binlogs.lastSeq.toNat = w.binlogs.lastSeq.toNat ∧
      (LogEvent.reopen.step w).binlogs.minSeq.toNat =
        max (low + 1) (w.binlogs.lastSeq.toNat - w.binlogs.capacity.toInt.toNat) := by
  have hcapacity := h.capacity
  have hsame : (LogEvent.reopen.step w).binlogs.lastSeq.toNat = w.binlogs.lastSeq.toNat := by
    rcases (h.logging.reopen hseq).2 with hgreatest | ⟨hnone, -⟩
    · have hin := hgreatest.1
      rw [hold] at hin hgreatest
      exact le_antisymm hin.2 (hgreatest.2 ⟨hlow, le_rfl⟩)
    · rw [hnone] at hold
      exact absurd hold.symm (Set.nonempty_Ioc.mpr hlow).ne_empty
  refine ⟨hsame, ?_⟩
  rcases h.reopen_min with hleast | ⟨hall, -⟩
  · rw [hsame, hold] at hleast
    obtain ⟨⟨hin, hge⟩, hmin⟩ := hleast
    have hfirst := hmin (a := max (low + 1) (w.binlogs.lastSeq.toNat - w.binlogs.capacity.toInt.toNat))
      ⟨⟨by omega, by omega⟩, by omega⟩
    have hlow' := hin.1
    omega
  · have hlast := hall w.binlogs.lastSeq.toNat (by rw [hold]; exact ⟨hlow, le_rfl⟩)
    omega

theorem reopen (hseq : w.ldb.sequence ≤ kMaxSequenceNumber) : Retained (LogEvent.reopen.step w) := by
  obtain ⟨hlogging, hlast⟩ := h.logging.reopen hseq
  obtain ⟨low, hlow, hold⟩ := h.tail
  have hcapacity := h.capacity
  have hmin := h.min
  rcases (hlow.trans hmin).eq_or_lt with heq | hlt
  · have hnone : logSeqs w.ldb.table = ∅ := by rw [hold, heq, Set.Ioc_self]
    have hzero : (LogEvent.reopen.step w).binlogs.lastSeq.toNat = 0 := by
      rcases hlast with hgreatest | ⟨-, hzero⟩
      · have hin := hgreatest.1
        rw [hnone] at hin
        exact hin.elim
      · rw [hzero]
        rfl
    have hfirst : (LogEvent.reopen.step w).binlogs.minSeq.toNat = 0 := by
      rcases h.reopen_min with hleast | ⟨-, hfirst⟩
      · have hin := hleast.1.1
        rw [hnone] at hin
        exact hin.elim
      · rw [hfirst, hzero]
        exact Nat.zero_sub _
    refine ⟨hlogging, hcapacity, by omega, 0, Nat.zero_le _, ?_⟩
    rw [hzero]
    exact hnone.trans (Set.Ioc_self 0).symm
  · obtain ⟨hsame, hfirst⟩ := h.reopen_stored hseq hlt hold
    refine ⟨hlogging, hcapacity, by omega, low, by omega, ?_⟩
    rw [hsame]
    exact hold

end Retained

end SSDBImpl

namespace LogEvent
open SSDBImpl

variable {w : SSDBImpl} {e : LogEvent}

def Gapless (e : LogEvent) (w : SSDBImpl) : Prop :=
  Contiguous (e.step w) ∧
    match e with
    | clean => w.binlogs.Due → Newest (e.step w)
    | _ => True

def Swept (e : LogEvent) (w : SSDBImpl) : Prop :=
  match e with
  | clean => w.binlogs.Due → ∀ n ∈ logSeqs w.ldb.table, w.binlogs.minSeq.toNat ≤ n
  | _ => True

theorem swept_step (h : Retained w) (hseq : (e.step w).ldb.sequence ≤ kMaxSequenceNumber)
    (he : e ≠ flushdb) (hswept : e.Swept w) : Retained (e.step w) ∧ e.Gapless w := by
  have hold := (e.step_sequence w).trans hseq
  have hplain (hstep : Retained (e.step w)) (hclean : e ≠ clean) : Retained (e.step w) ∧ e.Gapless w := by
    refine ⟨hstep, hstep.contiguous, ?_⟩
    cases e with
    | clean => exact absurd rfl hclean
    | transact | flushdb | reopen => trivial
  cases e with
  | transact batch => exact hplain (h.transact hseq) nofun
  | reopen => exact hplain (h.reopen hold) nofun
  | flushdb => exact absurd rfl he
  | clean =>
    rcases em w.binlogs.Due with hdue | hdue
    · obtain ⟨hstep, hnewest⟩ := h.clean hdue hold (hswept hdue)
      exact ⟨hstep, hstep.contiguous, fun _ => hnewest⟩
    · rw [Gapless, Logging.clean_idle hdue]
      exact ⟨h, h.contiguous, fun h' => absurd h' hdue⟩

theorem gapless_iff (h : Retained w) (hseq : (e.step w).ldb.sequence ≤ kMaxSequenceNumber)
    (he : e ≠ flushdb) : e.Gapless w ↔ e.Swept w := by
  refine ⟨fun hgapless => ?_, fun hswept => (swept_step h hseq he hswept).2⟩
  cases e with
  | clean =>
    intro hdue n hn
    by_contra hlt
    exact h.clean_orphaned hdue ((clean.step_sequence w).trans hseq) hn (not_le.mp hlt)
      (hgapless.2 hdue)
  | transact batch => trivial
  | reopen => trivial
  | flushdb => trivial

open Trace in
/-- A run keeps the log without gaps if and only if each of its deleting rounds starts with nothing
stored below `min_seq_`. -/
theorem log_gapless_iff {capacity : Int32} (hcapacity : 1 ≤ capacity.toInt) {es : List LogEvent}
    (hes : ∀ e ∈ es, e ≠ flushdb)
    (hseq : (run step es (fresh true capacity)).ldb.sequence ≤ kMaxSequenceNumber) :
    Along step Gapless es (fresh true capacity) ↔ Along step Swept es (fresh true capacity) := by
  have hbound := (along_le (fun w : SSDBImpl => w.ldb.sequence) step_sequence es hseq).2
  exact along_congr (hbound.and (along_of_forall hes)) (retained_fresh hcapacity)
    (fun e w he h => gapless_iff h he.1 he.2) fun e w he h hswept => (swept_step h he.1 he.2 hswept).1

open Trace in
theorem log_gapless_iff_reopen :
    let es := [transact (setBatch [107] [49] 1), reopen, clean]
    Along step Gapless es (fresh true 1000) ↔ Along step Swept es (fresh true 1000) :=
  log_gapless_iff (by decide) (by simp) (by decide)

def setsRecs (key val : Bytes) (logType : Byte) : ℕ → List Rec
  | 0 => []
  | n + 1 => kvRecs key val logType ++ setsRecs key val logType n

theorem setsRecs_paired (key val : Bytes) (logType : Byte) (n : ℕ) :
    Paired (setsRecs key val logType n) := by
  induction n with
  | zero => exact .nil
  | succ n ih => exact (kvRecs_paired key val logType).append ih

theorem setsRecs_length (key val : Bytes) (logType : Byte) (n : ℕ) :
    (Rec.entries (setsRecs key val logType n)).length = n ∧
      (setsRecs key val logType n).length = 2 * n := by
  induction n with
  | zero => exact ⟨rfl, rfl⟩
  | succ n ih =>
    rw [setsRecs, Rec.entries_append, List.length_append, List.length_append, ih.1, ih.2]
    have hone : (Rec.entries (kvRecs key val logType)).length = 1 := rfl
    have htwo : (kvRecs key val logType).length = 2 := rfl
    omega

def setsBatch (n : ℕ) : Batch := ⟨setsRecs [107] [49] 1 n, (setsRecs_paired [107] [49] 1 n).offLog⟩

theorem setsBatch_step (h : Logging w) {n : ℕ} (hn : w.ldb.sequence + 2 * n ≤ kMaxSequenceNumber) :
    Logging ((transact (setsBatch n)).step w) ∧
      ((transact (setsBatch n)).step w).ldb.sequence = w.ldb.sequence + 2 * n ∧
      ((transact (setsBatch n)).step w).binlogs.lastSeq.toNat = w.binlogs.lastSeq.toNat + n ∧
      logSeqs ((transact (setsBatch n)).step w).ldb.table =
        logSeqs w.ldb.table ∪ Set.Ioc w.binlogs.lastSeq.toNat (w.binlogs.lastSeq.toNat + n) ∧
      ((transact (setsBatch n)).step w).binlogs.minSeq = w.binlogs.minSeq ∧
      ((transact (setsBatch n)).step w).binlogs.capacity = w.binlogs.capacity := by
  obtain ⟨hentries, hlength⟩ := setsRecs_length [107] [49] 1 n
  have hgrown : ((transact (setsBatch n)).step w).ldb.sequence = w.ldb.sequence + 2 * n := by
    rw [h.transact_eq, (committed_numbered _ h.enabled).2.2, setsBatch, hlength]
  have hstep := h.transact (hgrown.trans_le hn)
  simp only [setsBatch, hentries] at hstep hgrown ⊢
  exact ⟨hstep.1, hgrown, hstep.2⟩

theorem five_reopened : ∃ w, w = reopen.step ((transact (setsBatch 5)).step (fresh true 1)) ∧
    Retained w ∧ w.ldb.sequence = 10 ∧ w.binlogs.lastSeq.toNat = 5 ∧ w.binlogs.minSeq.toNat = 4 ∧
      w.binlogs.capacity = 1 ∧ logSeqs w.ldb.table = Set.Ioc 0 5 := by
  have hfresh := retained_fresh (by decide : 1 ≤ (1 : Int32).toInt)
  obtain ⟨-, hseq, hlast, -, hmin, hcapacity⟩ :=
    setsBatch_step (n := 5) hfresh.logging (by decide)
  have hroom : ((transact (setsBatch 5)).step (fresh true 1)).ldb.sequence ≤ kMaxSequenceNumber :=
    hseq.trans_le (by decide)
  have hstep := hfresh.transact hroom
  obtain ⟨low, hlow, hold⟩ := hstep.tail
  obtain rfl : low = 0 := by
    rw [hmin] at hlow
    exact Nat.le_zero.mp hlow
  have hpos : 0 < ((transact (setsBatch 5)).step (fresh true 1)).binlogs.lastSeq.toNat := by
    rw [hlast]
    decide
  obtain ⟨hsame, hfirst⟩ := hstep.reopen_stored hroom hpos hold
  rw [hcapacity, hlast] at hfirst
  rw [hlast] at hold
  exact ⟨_, rfl, hstep.reopen hroom, hseq, hsame.trans hlast, hfirst, hcapacity, hold⟩

open Trace in
theorem orphans_kept :
    ¬Along step Gapless [transact (setsBatch 5), reopen, transact (setsBatch 10000), clean]
      (fresh true 1) := by
  rintro ⟨-, -, -, ⟨-, hnewest⟩, -⟩
  obtain ⟨w, hw, hretained, hseq, hlast, hmin, hcapacity, hseqs⟩ := five_reopened
  rw [← hw] at hnewest
  obtain ⟨-, hseq', hlast', hseqs', hmin', hcapacity'⟩ :=
    setsBatch_step (n := 10000) hretained.logging (by rw [hseq]; decide)
  have hroom : ((transact (setsBatch 10000)).step w).ldb.sequence ≤ kMaxSequenceNumber := by
    rw [hseq', hseq]
    decide
  rw [hlast] at hlast'
  rw [hcapacity] at hcapacity'
  have hdue : ((transact (setsBatch 10000)).step w).binlogs.Due := by
    have hle : ((transact (setsBatch 10000)).step w).binlogs.minSeq ≤
        ((transact (setsBatch 10000)).step w).binlogs.lastSeq := by
      rw [UInt64.le_iff_toNat_le, hmin', hmin, hlast']
      decide
    refine ⟨hle, ?_⟩
    rw [UInt64.le_iff_toNat_le, UInt64.toNat_sub_of_le _ _ hle, hmin', hmin, hlast', hcapacity']
    decide
  refine (hretained.transact hroom).clean_orphaned hdue hroom (n := 1) ?_ ?_ (hnewest hdue)
  · rw [hseqs', hseqs]
    exact .inl ⟨by decide, by decide⟩
  · rw [hmin', hmin]
    decide

end LogEvent
