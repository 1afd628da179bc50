import Ssdb.Theory.Positions

open SSDBImpl

inductive FlushPhase where
  | called
  | wiped
  | flushing (start last : UInt64)
  | returned (ret : Int)
deriving DecidableEq, Repr

structure Flushing where
  store : SSDBImpl
  phase : FlushPhase
  gap : List ℕ
  late : List ℕ

inductive FlushMove where
  | transact (batch : Batch)
  | flushdb (writes : List Bool)

namespace FlushMove

def stepTransact (batch : Batch) (s : Flushing) : Flushing :=
  let store := (LogEvent.transact batch).step s.store
  let added := (LogEvent.transact batch).added s.store
  match s.phase with
  | .called => { s with store }
  | .wiped => { s with store, gap := s.gap ++ added }
  | .flushing _ _ => { s with store, late := s.late ++ added }
  | .returned _ => { s with store, late := s.late ++ added }

def delTurn (start last : UInt64) (writes : List Bool) (s : Flushing) : Flushing :=
  let (batch, next) := Binlogs.delBatch last 1000 start
  let (ok, store) := LevelDB.Write batch { s.store with faults := ⟨[], writes⟩ }
  { s with
    store := { store with faults := .none }
    phase := if ok then .flushing next last else .returned (-1) }

def stepFlushdb (writes : List Bool) (s : Flushing) : Flushing :=
  match s.phase with
  | .called =>
    { s with
      store := { (wipe { s.store with faults := ⟨[], writes⟩ }).2 with faults := .none }
      phase := .wiped }
  | .wiped => { s with phase := .flushing s.store.binlogs.minSeq s.store.binlogs.lastSeq }
  | .flushing start last =>
    if start ≤ last then delTurn start last writes s else { s with phase := .returned 0 }
  | .returned _ => s

def step : FlushMove → Flushing → Flushing
  | transact batch, s => stepTransact batch s
  | flushdb writes, s => stepFlushdb writes s

end FlushMove

namespace Flushing

def start (w : SSDBImpl) : Flushing := ⟨w, .called, [], []⟩

end Flushing

namespace SSDBImpl

structure Pruned (db db' : LevelDB) : Prop where
  seqs : logSeqs db'.table ⊆ logSeqs db.table
  logbook : Logbook db.table → Logbook db'.table
  sequence : db.sequence ≤ db'.sequence

namespace Pruned

theorem refl (db : LevelDB) : Pruned db db := ⟨Set.Subset.rfl, id, le_rfl⟩

theorem trans {db db' db'' : LevelDB} (h : Pruned db db') (h' : Pruned db' db'') : Pruned db db'' :=
  ⟨h'.seqs.trans h.seqs, h'.logbook ∘ h.logbook, h.sequence.trans h'.sequence⟩

theorem delete (db : LevelDB) (key : Bytes) : Pruned db (db.write [.delete key]) where
  seqs n hn := by
    obtain ⟨x, hx, hget⟩ := hn
    refine ⟨x, hx, fun hnone => hget ?_⟩
    change (db.table.erase key).get _ = none
    rw [OrdMap.get_erase, hnone, ite_self]
  logbook h := logbook_erase h key
  sequence := Nat.le_add_right _ _

end Pruned

theorem flushRound_pruned (es : List (Bytes × Bytes)) (w : SSDBImpl) :
    (flushRound es w).2.binlogs = w.binlogs ∧ Pruned w.ldb (flushRound es w).2.ldb := by
  induction es generalizing w with
  | nil => exact ⟨rfl, .refl _⟩
  | cons e es ih =>
    rw [flushRound, M.bind_apply]
    rcases eq_or_ne w.faults.write.head? (some true) with hw | hw
    · rw [Write_failed _ hw]
      exact ⟨rfl, .refl _⟩
    · rw [Write_ok _ hw, if_pos rfl]
      obtain ⟨hbinlogs, hpruned⟩ := ih { w with
        ldb := w.ldb.write [.delete e.1]
        faults := { w.faults with write := w.faults.write.tail } }
      exact ⟨hbinlogs, (Pruned.delete w.ldb e.1).trans hpruned⟩

theorem flushdbFrom_pruned (fuel : ℕ) (w : SSDBImpl) :
    (flushdbFrom fuel w).2.binlogs = w.binlogs ∧ Pruned w.ldb (flushdbFrom fuel w).2.ldb := by
  induction fuel generalizing w with
  | zero => exact ⟨rfl, .refl _⟩
  | succ fuel ih =>
    obtain ⟨hbinlogs, hpruned⟩ := flushRound_pruned (w.ldb.table.entries.take 10000) w
    rw [flushdbFrom_succ, M.bind_apply]
    generalize hround : flushRound (w.ldb.table.entries.take 10000) w = r at hbinlogs hpruned
    obtain ⟨ok, w'⟩ := r
    cases ok with
    | false => exact ⟨hbinlogs, hpruned⟩
    | true =>
      rw [if_pos rfl]
      rcases lt_or_ge w.ldb.table.entries.length 10000 with hlen | hlen
      · rw [if_pos hlen]
        exact ⟨hbinlogs, hpruned⟩
      · rw [if_neg (not_lt.mpr hlen)]
        obtain ⟨hrest, hpruned'⟩ := ih w'
        exact ⟨hrest.trans hbinlogs, hpruned.trans hpruned'⟩

theorem wipe_pruned (w : SSDBImpl) :
    (SSDBImpl.wipe w).2.binlogs = { w.binlogs with tranSeq := 0, batch := [] } ∧
      Pruned w.ldb (SSDBImpl.wipe w).2.ldb := by
  obtain ⟨hbinlogs, hpruned⟩ :=
    flushdbFrom_pruned (w.ldb.table.size + 1) { w with binlogs := w.binlogs.begin }
  refine ⟨?_, hpruned⟩
  have hwipe : (wipe w).2.binlogs = (flushdbFrom (w.ldb.table.size + 1)
    { w with binlogs := w.binlogs.begin }).2.binlogs.rollback := rfl
  rw [hwipe, hbinlogs]
  rfl

end SSDBImpl

namespace Flushing

def Accounted (s : Flushing) : Prop :=
  match s.phase with
  | .called => s.gap = [] ∧ s.late = []
  | .wiped => s.late = [] ∧ ∀ n ∈ s.gap, n ∈ logSeqs s.store.ldb.table
  | .flushing start last =>
    s.store.binlogs.minSeq.toNat ≤ start.toNat ∧ last.toNat ≤ s.store.binlogs.lastSeq.toNat ∧
      (∀ n ∈ s.gap, n ≤ last.toNat ∧ (n ∈ logSeqs s.store.ldb.table ↔
        n < s.store.binlogs.minSeq.toNat ∨ start.toNat ≤ n)) ∧
        ∀ n ∈ s.late, last.toNat < n ∧ n ∈ logSeqs s.store.ldb.table
  | .returned ret =>
    (∀ n ∈ s.gap, n < s.store.binlogs.minSeq.toNat → n ∈ logSeqs s.store.ldb.table) ∧
      (ret = 0 → ∀ n ∈ s.gap, s.store.binlogs.minSeq.toNat ≤ n →
        n ∉ logSeqs s.store.ldb.table) ∧
        ∀ n ∈ s.late, n ∈ logSeqs s.store.ldb.table

structure Sound (s : Flushing) : Prop where
  logging : Logging s.store
  gap : ∀ n ∈ s.gap, n ≤ s.store.binlogs.lastSeq.toNat
  late : ∀ n ∈ s.late, n ≤ s.store.binlogs.lastSeq.toNat
  accounted : s.Accounted

theorem sound_start {w : SSDBImpl} (h : Logging w) : Sound (start w) where
  logging := h
  gap _ hn := absurd hn List.not_mem_nil
  late _ hn := absurd hn List.not_mem_nil
  accounted := ⟨rfl, rfl⟩

end Flushing

namespace FlushMove
open Flushing

variable {s : Flushing} (h : Sound s)
include h

theorem transact_sound {batch : Batch}
    (hseq : ((transact batch).step s).store.ldb.sequence ≤ kMaxSequenceNumber) :
    Sound ((transact batch).step s) := by
  obtain ⟨w, phase, gap, late⟩ := s
  obtain ⟨hlogging, hgap, hlate, haccounted⟩ := h
  simp only at hlogging hgap hlate
  have hstore : ((transact batch).step ⟨w, phase, gap, late⟩).store = (LogEvent.transact batch).step w := by
    cases phase <;> rfl
  rw [hstore] at hseq
  obtain ⟨hnext, hlast, hseqs, hmin, -⟩ := hlogging.transact hseq
  have hadded := LogEvent.added_transact hlogging hseq
  have hold {n : ℕ} (hn : n ≤ w.binlogs.lastSeq.toNat) :
      n ∈ logSeqs ((LogEvent.transact batch).step w).ldb.table ↔ n ∈ logSeqs w.ldb.table := by
    rw [hseqs]
    exact ⟨fun h => h.resolve_right fun h' => absurd h'.1 (not_lt.mpr hn), .inl⟩
  have hnew {n : ℕ} (hn : n ∈ (LogEvent.transact batch).added w) : w.binlogs.lastSeq.toNat < n ∧
      n ≤ ((LogEvent.transact batch).step w).binlogs.lastSeq.toNat ∧
        n ∈ logSeqs ((LogEvent.transact batch).step w).ldb.table := by
    rw [hadded, List.mem_range'_1] at hn
    rw [hseqs, hlast]
    exact ⟨by omega, by omega, .inr ⟨by omega, by omega⟩⟩
  have hgrows : w.binlogs.lastSeq.toNat ≤ ((LogEvent.transact batch).step w).binlogs.lastSeq.toNat := by
    omega
  have hgap' (n : ℕ) (hn : n ∈ gap) := (hgap n hn).trans hgrows
  have hlate' (n : ℕ) (hn : n ∈ late) := (hlate n hn).trans hgrows
  cases phase with
  | called => exact ⟨hnext, hgap', hlate', haccounted⟩
  | wiped =>
    obtain ⟨hnone, hstored⟩ := haccounted
    refine ⟨hnext, fun n hn => ?_, hlate', hnone, fun n hn => ?_⟩
    · exact (List.mem_append.mp hn).elim (hgap' n) fun hn => (hnew hn).2.1
    · exact (List.mem_append.mp hn).elim (fun hn => (hold (hgap n hn)).mpr (hstored n hn))
        fun hn => (hnew hn).2.2
  | flushing start last =>
    obtain ⟨hstart, hbound, hleft, hkept⟩ := haccounted
    refine ⟨hnext, hgap', fun n hn => ?_, ?_, hbound.trans hgrows, fun n hn => ?_, fun n hn => ?_⟩
    · exact (List.mem_append.mp hn).elim (hlate' n) fun hn => (hnew hn).2.1
    · rw [hstore, hmin]
      exact hstart
    · rw [hstore, hmin, hold (hgap n hn)]
      exact hleft n hn
    · rcases List.mem_append.mp hn with hn | hn
      · exact ⟨(hkept n hn).1, (hold (hlate n hn)).mpr (hkept n hn).2⟩
      · exact ⟨hbound.trans_lt (hnew hn).1, (hnew hn).2.2⟩
  | returned ret =>
    obtain ⟨hbelow, hcleared, hkept⟩ := haccounted
    refine ⟨hnext, hgap', fun n hn => ?_, fun n hn hlt => ?_, fun hret n hn hge => ?_, fun n hn => ?_⟩
    · exact (List.mem_append.mp hn).elim (hlate' n) fun hn => (hnew hn).2.1
    · rw [hstore, hmin] at hlt
      rw [hstore, hold (hgap n hn)]
      exact hbelow n hn hlt
    · rw [hstore, hmin] at hge
      rw [hstore, hold (hgap n hn)]
      exact hcleared hret n hn hge
    · exact (List.mem_append.mp hn).elim (fun hn => (hold (hlate n hn)).mpr (hkept n hn))
        fun hn => (hnew hn).2.2

omit h

section batch
variable {w : SSDBImpl} {start last : UInt64} (gap late : List ℕ)

theorem step_done (hle : ¬start ≤ last) (writes : List Bool) :
    (flushdb writes).step ⟨w, .flushing start last, gap, late⟩ = ⟨w, .returned 0, gap, late⟩ :=
  if_neg hle

theorem step_failed (hle : start ≤ last) {writes : List Bool} (hw : writes.head? = some true) :
    (flushdb writes).step ⟨w, .flushing start last, gap, late⟩ =
      ⟨{ w with faults := .none }, .returned (-1), gap, late⟩ := by
  have hturn : (flushdb writes).step ⟨w, .flushing start last, gap, late⟩ =
    delTurn start last writes ⟨w, .flushing start last, gap, late⟩ := if_pos hle
  rcases hbatch : Binlogs.delBatch last 1000 start with ⟨batch, next⟩
  have hwrite := Write_failed batch (w := { w with faults := ⟨[], writes⟩ }) hw
  simp only [hturn, delTurn, hbatch, hwrite]
  rfl

theorem step_batch (hle : start ≤ last) {writes : List Bool} (hw : writes.head? ≠ some true) :
    (flushdb writes).step ⟨w, .flushing start last, gap, late⟩ =
      ⟨{ w with ldb := w.ldb.write (Binlogs.delBatch last 1000 start).1, faults := .none },
        .flushing (Binlogs.delBatch last 1000 start).2 last, gap, late⟩ := by
  have hturn : (flushdb writes).step ⟨w, .flushing start last, gap, late⟩ =
    delTurn start last writes ⟨w, .flushing start last, gap, late⟩ := if_pos hle
  rcases hbatch : Binlogs.delBatch last 1000 start with ⟨batch, next⟩
  have hwrite := Write_ok batch (w := { w with faults := ⟨[], writes⟩ }) hw
  simp only [hturn, delTurn, hbatch, hwrite]
  rfl

end batch

theorem batch_sound {w : SSDBImpl} {start last : UInt64} {gap late : List ℕ}
    (h : Sound ⟨w, .flushing start last, gap, late⟩) (hseq : w.ldb.sequence ≤ kMaxSequenceNumber)
    (writes : List Bool) : Sound ((flushdb writes).step ⟨w, .flushing start last, gap, late⟩) := by
  obtain ⟨hlogging, hgap, hlate, hstart, hbound, hleft, hkept⟩ := h
  simp only at hlogging hgap hlate hstart hbound hleft hkept
  have hlast := hlogging.last.trans hseq
  rw [kMaxSequenceNumber] at hlast
  rcases em (start ≤ last) with hle | hle
  · rcases eq_or_ne writes.head? (some true) with hw | hw
    · rw [step_failed gap late hle hw]
      refine ⟨⟨hlogging.enabled, rfl, hlogging.logbook, hlogging.stored, hlogging.last⟩, hgap, hlate,
        fun n hn hlt => (hleft n hn).2.mpr (.inl hlt), fun hret => absurd hret (by decide),
        fun n hn => (hkept n hn).2⟩
    · rw [step_batch gap late hle hw]
      rw [UInt64.le_iff_toNat_le] at hle
      have hcleared := Binlogs.cleared_batch (by omega : last.toNat + 1 < 2 ^ 64) 1000
        (by omega : start.toNat ≤ last.toNat + 1) w.ldb
      have hstop := (Binlogs.delBatch_spec (by omega : last.toNat + 1 < 2 ^ 64) 1000
        (by omega : start.toNat ≤ last.toNat + 1) w.ldb.table).1
      rcases hbatch : Binlogs.delBatch last 1000 start with ⟨batch, next⟩
      rw [hbatch] at hcleared hstop
      simp only at hcleared hstop
      refine ⟨⟨hlogging.enabled, rfl, hcleared.logbook hlogging.logbook, fun n hn => ?_,
        hlogging.last.trans hcleared.sequence⟩, hgap, hlate, by simp only; omega, hbound, fun n hn => ?_,
        fun n hn => ?_⟩
      · rw [hcleared.seqs] at hn
        exact hlogging.stored n hn.1
      · refine ⟨(hleft n hn).1, ?_⟩
        simp only
        rw [hcleared.seqs, Set.mem_sdiff, (hleft n hn).2, Set.mem_Ico]
        omega
      · have habove := (hkept n hn).1
        simp only
        rw [hcleared.seqs]
        exact ⟨habove, (hkept n hn).2, fun hin => by have hlt := hin.2; omega⟩
  · rw [step_done gap late hle]
    rw [UInt64.le_iff_toNat_le] at hle
    refine ⟨hlogging, hgap, hlate, fun n hn hlt => (hleft n hn).2.mpr (.inl hlt), fun _ n hn hge hin => ?_,
      fun n hn => (hkept n hn).2⟩
    have hreached := (hleft n hn).2.mp hin
    have hbelow := (hleft n hn).1
    simp only at hge
    omega

theorem flushdb_sound (h : Sound s) (hseq : s.store.ldb.sequence ≤ kMaxSequenceNumber)
    (writes : List Bool) : Sound ((flushdb writes).step s) := by
  obtain ⟨w, phase, gap, late⟩ := s
  cases phase with
  | called =>
    obtain ⟨hlogging, -, -, hgap, hlate⟩ := h
    obtain ⟨hbinlogs, hpruned⟩ := wipe_pruned { w with faults := ⟨[], writes⟩ }
    have hlast : (SSDBImpl.wipe { w with faults := ⟨[], writes⟩ }).2.binlogs.lastSeq = w.binlogs.lastSeq := by
      rw [hbinlogs]
    simp only at hgap hlate
    subst hgap hlate
    refine ⟨⟨?_, rfl, hpruned.logbook hlogging.logbook, fun n hn => ?_, ?_⟩,
      fun n hn => absurd hn List.not_mem_nil, fun n hn => absurd hn List.not_mem_nil, rfl,
      fun n hn => absurd hn List.not_mem_nil⟩
    · change (SSDBImpl.wipe { w with faults := ⟨[], writes⟩ }).2.binlogs.enabled = true
      rw [hbinlogs]
      exact hlogging.enabled
    · change n ≤ (SSDBImpl.wipe { w with faults := ⟨[], writes⟩ }).2.binlogs.lastSeq.toNat
      rw [hlast]
      exact hlogging.stored n (hpruned.seqs hn)
    · change (SSDBImpl.wipe { w with faults := ⟨[], writes⟩ }).2.binlogs.lastSeq.toNat ≤ _
      rw [hlast]
      exact hlogging.last.trans hpruned.sequence
  | wiped =>
    obtain ⟨hlogging, hgap, hlate, hnone, hstored⟩ := h
    simp only at hnone
    subst hnone
    refine ⟨hlogging, hgap, hlate, le_rfl, le_rfl, fun n hn => ⟨hgap n hn, ?_⟩,
      fun n hn => absurd hn List.not_mem_nil⟩
    exact iff_of_true (hstored n hn) (lt_or_ge _ _)
  | flushing start last => exact batch_sound h hseq writes
  | returned ret => exact h

end FlushMove

namespace Flushing
open FlushMove Trace

theorem step_sequence (m : FlushMove) (s : Flushing) :
    s.store.ldb.sequence ≤ (m.step s).store.ldb.sequence := by
  obtain ⟨w, phase, gap, late⟩ := s
  cases m with
  | transact batch =>
    have hstep := (LogEvent.transact batch).step_sequence w
    cases phase <;> exact hstep
  | flushdb writes =>
    cases phase with
    | called => exact (wipe_pruned { w with faults := ⟨[], writes⟩ }).2.sequence
    | wiped => exact le_rfl
    | flushing start last =>
      rcases em (start ≤ last) with hle | hle
      · rcases eq_or_ne writes.head? (some true) with hw | hw
        · rw [step_failed gap late hle hw]
        · rw [step_batch gap late hle hw]
          exact Nat.le_add_right _ _
      · rw [step_done gap late hle]
    | returned ret => exact le_rfl

theorem run_sound {w : SSDBImpl} (hw : Logging w) (ms : List FlushMove)
    (hseq : (run step ms (start w)).store.ldb.sequence ≤ kMaxSequenceNumber) :
    Sound (run step ms (start w)) := by
  have hbound := (along_le (fun s : Flushing => s.store.ldb.sequence) step_sequence ms hseq).2
  refine hbound.invariant (fun m s hm h => ?_) (sound_start hw)
  cases m with
  | transact batch => exact transact_sound h hm
  | flushdb writes => exact flushdb_sound h ((step_sequence _ s).trans hm) writes

theorem delRange_steps {last : UInt64} (hlast : last.toNat + 1 < 2 ^ 64) (fuel : ℕ) {start : UInt64}
    (hfuel : last.toNat + 1 ≤ start.toNat + fuel) {w : SSDBImpl} (hw : w.faults = Faults.none)
    (gap late : List ℕ) :
    ∃ n, run step (List.replicate n (.flushdb [])) ⟨w, .flushing start last, gap, late⟩ =
      ⟨(Binlogs.delRangeFrom last fuel start w).2, .returned 0, gap, late⟩ := by
  have hquiet : w.faults.write = [] := congrArg Faults.write hw
  induction fuel generalizing start w with
  | zero =>
    have hgt : ¬start ≤ last := by
      rw [UInt64.le_iff_toNat_le]
      omega
    exact ⟨1, step_done gap late hgt []⟩
  | succ fuel ih =>
    rcases em (start ≤ last) with hle | hle
    · have hbatch := step_batch (w := w) gap late hle (by simp : ([] : List Bool).head? ≠ some true)
      rw [UInt64.le_iff_toNat_le] at hle
      have hstop := (Binlogs.delBatch_spec hlast 1000 (by omega : start.toNat ≤ last.toNat + 1)
        w.ldb.table).1
      have hnext : last.toNat + 1 ≤ (Binlogs.delBatch last 1000 start).2.toNat + fuel := by omega
      obtain ⟨n, hn⟩ := ih hnext (w := { w with ldb := w.ldb.write (Binlogs.delBatch last 1000 start).1 })
        hw hquiet
      refine ⟨n + 1, ?_⟩
      rw [← hw] at hbatch
      rw [List.replicate_succ, run_cons, hbatch, hn, Binlogs.delRangeFrom,
        if_pos (UInt64.le_iff_toNat_le.mpr hle)]
      rcases Binlogs.delBatch last 1000 start with ⟨batch, next⟩
      simp only [M.bind_apply, Binlogs.Write_apply batch hquiet, if_true]
    · refine ⟨1, ?_⟩
      rw [Binlogs.delRangeFrom, if_neg hle]
      exact step_done gap late hle []

theorem flushdb_steps {w : SSDBImpl} (h : Logging w) (hseq : w.ldb.sequence ≤ kMaxSequenceNumber) :
    ∃ n, run step (List.replicate n (.flushdb [])) (start w) =
      ⟨(SSDBImpl.flushdb w).2, .returned 0, [], []⟩ := by
  obtain ⟨hwiped, hbinlogs, -⟩ := h.wipe
  have hlast := h.last.trans hseq
  rw [kMaxSequenceNumber] at hlast
  have hsame : (wipe w).2.binlogs.lastSeq = w.binlogs.lastSeq := by rw [hbinlogs]
  have hfirst : FlushMove.step (.flushdb []) (start w) = ⟨(wipe w).2, .wiped, [], []⟩ := by
    have hwipe : FlushMove.step (.flushdb []) (start w) =
      ⟨{ (wipe { w with faults := .none }).2 with faults := .none }, .wiped, [], []⟩ := rfl
    have hw : { w with faults := Faults.none } = w := by rw [← h.faults]
    rw [hwipe, hw, ← hwiped.faults]
  have hfuel : (wipe w).2.binlogs.lastSeq.toNat + 1 ≤ (wipe w).2.binlogs.minSeq.toNat +
      ((wipe w).2.binlogs.lastSeq.toNat + 1 - (wipe w).2.binlogs.minSeq.toNat) := by omega
  obtain ⟨n, hn⟩ := delRange_steps (by rw [hsame]; omega) _ hfuel hwiped.faults [] []
  refine ⟨n + 2, ?_⟩
  rw [List.replicate_succ, List.replicate_succ, run_cons, run_cons, hfirst]
  exact hn

/-- Whatever transactions come in between: when `flushdb` returns, every record committed after its
locked part is stored if and only if those committed before it read the bounds of the log are
numbered below `min_seq_`; also when a deletion failed, in the one direction. -/
theorem flushdb_keeps_iff (capacity : Int32) (es : List LogEvent) (ms : List FlushMove) :
    let w := run LogEvent.step es (fresh true capacity)
    let s := run step ms (start w)
    s.store.ldb.sequence ≤ kMaxSequenceNumber → ∀ ret, s.phase = .returned ret →
      ((∀ n ∈ s.gap, n < s.store.binlogs.minSeq.toNat) →
        ∀ n ∈ s.gap ++ s.late, n ∈ logSeqs s.store.ldb.table) ∧
      (ret = 0 → ((∀ n ∈ s.gap ++ s.late, n ∈ logSeqs s.store.ldb.table) ↔
        ∀ n ∈ s.gap, n < s.store.binlogs.minSeq.toNat)) := by
  intro w s hseq ret hret
  have hstart := (along_le (fun s : Flushing => s.store.ldb.sequence) step_sequence ms hseq).1
  have hlogging : Logging w := by
    have hbound := (along_le (fun w : SSDBImpl => w.ldb.sequence) LogEvent.step_sequence es hstart).2
    exact hbound.invariant (fun e w he h => h.step he) (logging_fresh capacity)
  have hsound : Sound s := run_sound hlogging ms hseq
  have haccounted := hsound.accounted
  rw [Accounted, hret] at haccounted
  obtain ⟨hbelow, hcleared, hlate⟩ := haccounted
  have hall (hgap : ∀ n ∈ s.gap, n < s.store.binlogs.minSeq.toNat) :
      ∀ n ∈ s.gap ++ s.late, n ∈ logSeqs s.store.ldb.table := fun n hn =>
    (List.mem_append.mp hn).elim (fun hn => hbelow n hn (hgap n hn)) (hlate n)
  refine ⟨hall, fun hzero => ⟨fun hstored n hn => ?_, hall⟩⟩
  by_contra hge
  exact hcleared hzero n hn (not_lt.mp hge) (hstored n (List.mem_append_left _ hn))

theorem flushdb_keeps_iff_late :
    let w := run LogEvent.step [.transact (LogEvent.setBatch [107] [49] 1)] (fresh true 1000)
    let s := run step [.flushdb [], .flushdb [], .transact (LogEvent.setBatch [107] [50] 1),
      .flushdb [], .flushdb []] (start w)
    ∀ n ∈ s.gap ++ s.late, n ∈ logSeqs s.store.ldb.table :=
  (flushdb_keeps_iff 1000 [.transact (LogEvent.setBatch [107] [49] 1)]
    [.flushdb [], .flushdb [], .transact (LogEvent.setBatch [107] [50] 1), .flushdb [], .flushdb []]
    (by decide) 0 (by decide)).1 (by decide)

theorem gap_record_lost :
    let s := run step [.flushdb [], .transact (LogEvent.setBatch [107] [49] 1), .flushdb [], .flushdb [],
      .flushdb []] (start (fresh true 1000))
    s.phase = .returned 0 ∧ s.gap = [1] ∧ s.store.ldb.table.get (Keys.encodeKvKey [107]) = some [49] ∧
      ¬∀ n ∈ s.gap ++ s.late, n ∈ logSeqs s.store.ldb.table := by
  refine ⟨by decide, by decide, by decide, fun h => ?_⟩
  exact (mem_logSeqs (x := 1)).mp (h 1 (by decide)) (by decide)

end Flushing
