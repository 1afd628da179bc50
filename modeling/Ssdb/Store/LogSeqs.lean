import Mathlib.Order.Interval.Set.Basic
import Ssdb.Store.Numbering

open Keys

def logSeqs (t : OrdMap Bytes Bytes) : Set ℕ :=
  {n | ∃ x : UInt64, x.toNat = n ∧ t.get (encodeSeqKey x) ≠ none}

theorem mem_logSeqs {t : OrdMap Bytes Bytes} {x : UInt64} :
    x.toNat ∈ logSeqs t ↔ t.get (encodeSeqKey x) ≠ none := by
  constructor
  · rintro ⟨y, hy, hget⟩
    rwa [UInt64.toNat_inj.mp hy] at hget
  · exact fun h => ⟨x, rfl, h⟩

theorem logSeqs_lt {t : OrdMap Bytes Bytes} {n : ℕ} (h : n ∈ logSeqs t) : n < 2 ^ 64 := by
  obtain ⟨x, rfl, -⟩ := h
  exact x.toNat_lt

theorem logSeqs_ext {t : OrdMap Bytes Bytes} {S : Set ℕ} (hS : ∀ n ∈ S, n < 2 ^ 64)
    (h : ∀ x : UInt64, t.get (encodeSeqKey x) ≠ none ↔ x.toNat ∈ S) : logSeqs t = S := by
  ext n
  constructor
  · rintro ⟨x, rfl, hget⟩
    exact (h x).mp hget
  · intro hn
    have hx : (UInt64.ofNat n).toNat = n := UInt64.toNat_ofNat_of_lt' (hS n hn)
    rw [← hx, mem_logSeqs, h, hx]
    exact hn

def LogEntry (key value : Bytes) : Prop :=
  key.head? = some DataType.SYNCLOG → ∃ (x : UInt64) (type cmd : Byte) (k : Bytes),
    x ≠ 0 ∧ key = encodeSeqKey x ∧ value = Binlog x type cmd k

def Logbook (t : OrdMap Bytes Bytes) : Prop :=
  ∀ key value, t.get key = some value → LogEntry key value

theorem logbook_insert {t : OrdMap Bytes Bytes} (ht : Logbook t) {key value : Bytes}
    (h : LogEntry key value) : Logbook (t.insert key value) := by
  intro k v hget
  rw [OrdMap.get_insert] at hget
  split_ifs at hget with hk
  · rw [hk, ← Option.some.inj hget]
    exact h
  · exact ht k v hget

theorem logbook_erase {t : OrdMap Bytes Bytes} (ht : Logbook t) (key : Bytes) :
    Logbook (t.erase key) := by
  intro k v hget
  rw [OrdMap.get_erase] at hget
  split_ifs at hget
  exact ht k v hget

namespace BinlogQueue
variable {recs : List Rec} {seq : UInt64}

theorem logSeqs_numbered (hoff : ∀ r ∈ recs, r.OffLog)
    (hroom : seq.toNat + (Rec.entries recs).length < 2 ^ 64) (t : OrdMap Bytes Bytes) :
    logSeqs ((numbered seq recs).foldl BatchOp.apply t) =
      logSeqs t ∪ Set.Ioc seq.toNat (seq.toNat + (Rec.entries recs).length) := by
  refine logSeqs_ext (fun n hn => ?_) fun x => ?_
  · rcases hn with hn | hn
    · exact logSeqs_lt hn
    · exact hn.2.trans_lt hroom
  rw [Set.mem_union, mem_logSeqs, Set.mem_Ioc]
  rcases em (seq.toNat < x.toNat ∧ x.toNat ≤ seq.toNat + (Rec.entries recs).length) with hx | hx
  · obtain ⟨i, hi⟩ : ∃ i, x.toNat = seq.toNat + i + 1 := ⟨x.toNat - seq.toNat - 1, by omega⟩
    have hlt : i < (Rec.entries recs).length := by omega
    rcases hentry : (Rec.entries recs)[i] with ⟨key, type, cmd⟩
    have hget := numbered_entry hoff hroom t hi
      ((List.getElem?_eq_getElem hlt).trans (congrArg some hentry))
    exact iff_of_true (by simp [hget]) (.inr hx)
  · have hout : x ≤ seq ∨ seq.toNat + (Rec.entries recs).length < x.toNat := by
      rw [UInt64.le_iff_toNat_le]
      omega
    rw [numbered_frame hoff hroom t hout]
    exact ⟨.inl, fun h => h.resolve_right hx⟩

theorem logbook_numbered (hoff : ∀ r ∈ recs, r.OffLog)
    (hroom : seq.toNat + (Rec.entries recs).length < 2 ^ 64) {t : OrdMap Bytes Bytes}
    (ht : Logbook t) : Logbook ((numbered seq recs).foldl BatchOp.apply t) := by
  induction recs generalizing seq t with
  | nil => exact ht
  | cons r recs ih =>
    have hrest := fun r' h' => hoff r' (List.mem_cons_of_mem r h')
    have hfirst := hoff r (by simp)
    cases r with
    | put key value => exact ih hrest hroom (logbook_insert ht fun hhead => absurd hhead hfirst)
    | delete key => exact ih hrest hroom (logbook_erase ht key)
    | log type cmd key =>
      rw [Rec.entries_log, List.length_cons] at hroom
      have hnext : (seq + 1).toNat = seq.toNat + 1 := by
        rw [UInt64.toNat_add]
        exact Nat.mod_eq_of_lt (by change _ + 1 < _; omega)
      have hne : seq + 1 ≠ 0 := by
        intro h0
        rw [h0] at hnext
        exact absurd hnext (Nat.succ_ne_zero _).symm
      refine ih hrest (by omega) (logbook_insert ht fun _ => ?_)
      exact ⟨seq + 1, type, cmd, key, hne, rfl, rfl⟩

end BinlogQueue

namespace SSDBImpl
variable {w : SSDBImpl} {recs : List Rec}

theorem committed_numbered (recs : List Rec) (henabled : w.binlogs.enabled = true) :
    (w.committed recs).ldb.table =
        (BinlogQueue.numbered w.binlogs.lastSeq recs).foldl BatchOp.apply w.ldb.table ∧
      (w.committed recs).binlogs.lastSeq =
        w.binlogs.lastSeq + UInt64.ofNat (Rec.entries recs).length ∧
      (w.committed recs).ldb.sequence = w.ldb.sequence + recs.length := by
  obtain ⟨hbatch, htran⟩ := BinlogQueue.recordAll_numbered recs (q := w.binlogs.begin) henabled
  refine ⟨congrArg (fun batch => batch.foldl BatchOp.apply w.ldb.table) hbatch, htran, ?_⟩
  rw [← BinlogQueue.numbered_length recs w.binlogs.lastSeq]
  exact congrArg (fun batch : List BatchOp => w.ldb.sequence + batch.length) hbatch

theorem committed_room (henabled : w.binlogs.enabled = true)
    (hlast : w.binlogs.lastSeq.toNat ≤ w.ldb.sequence)
    (hseq : (w.committed recs).ldb.sequence ≤ kMaxSequenceNumber) :
    w.binlogs.lastSeq.toNat + (Rec.entries recs).length < 2 ^ 64 ∧
      (w.committed recs).binlogs.lastSeq.toNat =
        w.binlogs.lastSeq.toNat + (Rec.entries recs).length := by
  obtain ⟨-, htran, hgrown⟩ := committed_numbered recs henabled
  have hlen : (Rec.entries recs).length ≤ recs.length := List.length_filterMap_le _ _
  have hroom : w.binlogs.lastSeq.toNat + (Rec.entries recs).length < 2 ^ 64 := by
    rw [hgrown, kMaxSequenceNumber] at hseq
    omega
  refine ⟨hroom, ?_⟩
  rw [htran, UInt64.toNat_add, UInt64.toNat_ofNat_of_lt' (by change _ < 2 ^ 64; omega)]
  exact Nat.mod_eq_of_lt hroom

end SSDBImpl

namespace Binlogs
open SSDBImpl

theorem delBatch_get {last : UInt64} (hlast : last.toNat + 1 < 2 ^ 64) (count : ℕ) {start : UInt64}
    (hstart : start.toNat ≤ last.toNat + 1) (t : OrdMap Bytes Bytes) :
    (delBatch last count start).2.toNat = min (start.toNat + count) (last.toNat + 1) ∧
      ∀ x, ((delBatch last count start).1.foldl BatchOp.apply t).get (encodeSeqKey x) =
        if start.toNat ≤ x.toNat ∧ x.toNat < (delBatch last count start).2.toNat then none
        else t.get (encodeSeqKey x) := by
  induction count generalizing start t with
  | zero =>
    refine ⟨by simp [delBatch, hstart], fun x => (if_neg ?_).symm⟩
    rintro ⟨hge, hlt⟩
    exact absurd hge (not_le.mpr hlt)
  | succ count ih =>
    rw [delBatch]
    split_ifs with h
    · rw [UInt64.le_iff_toNat_le] at h
      have hnext : (start + 1).toNat = start.toNat + 1 := by
        rw [UInt64.toNat_add]
        exact Nat.mod_eq_of_lt (by change _ + 1 < _; omega)
      obtain ⟨hstop, hget⟩ := ih (by omega : (start + 1).toNat ≤ last.toNat + 1)
        (t.erase (encodeSeqKey start))
      rcases hbatch : delBatch last count (start + 1) with ⟨batch, next⟩
      simp only [hbatch, hnext] at hstop hget
      refine ⟨by simp only; omega, fun x => ?_⟩
      have hkey : encodeSeqKey x = encodeSeqKey start ↔ x.toNat = start.toNat := by
        rw [encodeSeqKey_inj, UInt64.toNat_inj]
      rw [List.foldl_cons, BatchOp.apply, hget, OrdMap.get_erase]
      simp only [hkey]
      split_ifs <;> first | rfl | omega
    · rw [UInt64.le_iff_toNat_le] at h
      refine ⟨by simp only; omega, fun x => (if_neg ?_).symm⟩
      rintro ⟨hge, hlt⟩
      exact absurd hge (not_le.mpr hlt)

theorem delBatch_spec {last : UInt64} (hlast : last.toNat + 1 < 2 ^ 64) (count : ℕ) {start : UInt64}
    (hstart : start.toNat ≤ last.toNat + 1) (t : OrdMap Bytes Bytes) :
    (delBatch last count start).2.toNat = min (start.toNat + count) (last.toNat + 1) ∧
      logSeqs ((delBatch last count start).1.foldl BatchOp.apply t) =
        logSeqs t \ Set.Ico start.toNat (delBatch last count start).2.toNat := by
  obtain ⟨hstop, hget⟩ := delBatch_get hlast count hstart t
  refine ⟨hstop, logSeqs_ext (fun n hn => logSeqs_lt hn.1) fun x => ?_⟩
  rw [hget, Set.mem_sdiff, mem_logSeqs, Set.mem_Ico]
  split_ifs with h
  · exact iff_of_false (fun h' => h' rfl) fun h' => h'.2 h
  · exact ⟨fun h' => ⟨h', h⟩, And.left⟩

theorem logbook_delBatch (last : UInt64) (count : ℕ) (start : UInt64) {t : OrdMap Bytes Bytes}
    (ht : Logbook t) : Logbook ((delBatch last count start).1.foldl BatchOp.apply t) := by
  induction count generalizing start t with
  | zero => exact ht
  | succ count ih =>
    rw [delBatch]
    split_ifs
    · exact ih (start + 1) (logbook_erase ht _)
    · exact ht

theorem Write_apply (batch : List BatchOp) {w : SSDBImpl} (h : w.faults.write = []) :
    LevelDB.Write batch w = (true, { w with ldb := w.ldb.write batch }) := by
  obtain ⟨ldb, binlogs, ⟨g, f⟩⟩ := w
  subst h
  rfl

structure Cleared (db db' : LevelDB) (S : Set ℕ) : Prop where
  seqs : logSeqs db'.table = logSeqs db.table \ S
  logbook : Logbook db.table → Logbook db'.table
  sequence : db.sequence ≤ db'.sequence

theorem cleared_batch {last : UInt64} (hlast : last.toNat + 1 < 2 ^ 64) (count : ℕ) {start : UInt64}
    (hstart : start.toNat ≤ last.toNat + 1) (db : LevelDB) :
    Cleared db (db.write (delBatch last count start).1)
      (Set.Ico start.toNat (delBatch last count start).2.toNat) where
  seqs := (delBatch_spec hlast count hstart db.table).2
  logbook := logbook_delBatch last count start
  sequence := Nat.le_add_right _ _

def reached (last : ℕ) : List Bool → ℕ → ℕ
  | [], start => max start (last + 1)
  | true :: _, start => start
  | false :: fails, start =>
    if start ≤ last then reached last fails (min (start + 1000) (last + 1)) else start

theorem reached_done {last start : ℕ} (h : last < start) (fails : List Bool) :
    reached last fails start = start := by
  rcases fails with _ | ⟨_ | _, fails⟩
  · exact max_eq_left h
  · exact if_neg (not_le.mpr h)
  · rfl

theorem reached_failed {fails : List Bool} (h : fails.head? = some true) (last start : ℕ) :
    reached last fails start = start := by
  rcases fails with _ | ⟨_ | _, fails⟩
  · exact absurd h (by simp)
  · exact absurd h (by simp)
  · rfl

theorem reached_next {last start : ℕ} {fails : List Bool} (h : start ≤ last)
    (hhead : fails.head? ≠ some true) :
    reached last fails start = reached last fails.tail (min (start + 1000) (last + 1)) := by
  rcases fails with _ | ⟨_ | _, fails⟩
  · rw [List.tail_nil, reached, reached]
    omega
  · exact if_pos h
  · exact absurd rfl hhead

theorem le_reached (last : ℕ) (fails : List Bool) (start : ℕ) : start ≤ reached last fails start := by
  induction fails generalizing start with
  | nil => exact le_max_left _ _
  | cons fail fails ih =>
    cases fail with
    | true => exact le_rfl
    | false =>
      rw [reached]
      split_ifs with h
      · have hnext := ih (min (start + 1000) (last + 1))
        omega
      · exact le_rfl

structure Removed (w w' : SSDBImpl) (low high : ℕ) : Prop where
  binlogs : w'.binlogs = w.binlogs
  quiet : w.faults.write = [] → w'.faults = w.faults
  logbook : Logbook w.ldb.table → Logbook w'.ldb.table
  sequence : w.ldb.sequence ≤ w'.ldb.sequence
  get : ∀ x, w'.ldb.table.get (encodeSeqKey x) =
    if low ≤ x.toNat ∧ x.toNat < high then none else w.ldb.table.get (encodeSeqKey x)

namespace Removed
variable {w w' w'' : SSDBImpl} {low mid high : ℕ}

theorem refl (w : SSDBImpl) (low : ℕ) : Removed w w low low where
  binlogs := rfl
  quiet _ := rfl
  logbook := id
  sequence := le_rfl
  get _ := (if_neg fun h => absurd h.1 (not_le.mpr h.2)).symm

theorem trans (h : Removed w w' low mid) (h' : Removed w' w'' mid high) (hlow : low ≤ mid)
    (hhigh : mid ≤ high) : Removed w w'' low high where
  binlogs := h'.binlogs.trans h.binlogs
  quiet hw := (h'.quiet ((congrArg Faults.write (h.quiet hw)).trans hw)).trans (h.quiet hw)
  logbook := h'.logbook ∘ h.logbook
  sequence := h.sequence.trans h'.sequence
  get x := by
    rw [h'.get, h.get]
    split_ifs <;> first | rfl | omega

end Removed

theorem delRangeFrom_removed {last : UInt64} (hlast : last.toNat + 1 < 2 ^ 64) (fuel : ℕ)
    (start : UInt64) (hfuel : last.toNat + 1 ≤ start.toNat + fuel) (w : SSDBImpl) :
    Removed w (delRangeFrom last fuel start w).2 start.toNat
      (reached last.toNat w.faults.write start.toNat) := by
  induction fuel generalizing start w with
  | zero =>
    rw [reached_done (by omega)]
    exact .refl w _
  | succ fuel ih =>
    rw [delRangeFrom]
    split_ifs with h
    · rw [UInt64.le_iff_toNat_le] at h
      rcases hbatch : delBatch last 1000 start with ⟨batch, next⟩
      rcases eq_or_ne w.faults.write.head? (some true) with hw | hw
      · rw [reached_failed hw]
        simp only [M.bind_apply, Write_failed batch hw, Bool.false_eq_true, if_false]
        exact ⟨rfl, fun hnil => absurd hw (by simp [hnil]), id, le_rfl, (Removed.refl w _).get⟩
      · obtain ⟨hstop, hget⟩ := delBatch_get hlast 1000
          (by omega : start.toNat ≤ last.toNat + 1) w.ldb.table
        have hbook := fun ht => logbook_delBatch last 1000 start (t := w.ldb.table) ht
        rw [hbatch] at hstop hget hbook
        simp only at hstop hget hbook
        simp only [M.bind_apply, Write_ok batch hw, if_true]
        rw [reached_next h hw, ← hstop]
        have hrest := ih next (by omega : last.toNat + 1 ≤ next.toNat + fuel) { w with
          ldb := w.ldb.write batch
          faults := { w.faults with write := w.faults.write.tail } }
        refine Removed.trans ?_ hrest (by omega) (le_reached _ _ _)
        exact ⟨rfl, fun hnil => by rw [hnil, List.tail_nil, ← hnil], hbook, Nat.le_add_right _ _, hget⟩
    · rw [UInt64.le_iff_toNat_le] at h
      rw [reached_done (not_le.mp h)]
      exact .refl w _

theorem delRangeFrom_spec {last : UInt64} (hlast : last.toNat + 1 < 2 ^ 64) (fuel : ℕ)
    {start : UInt64} (hfuel : last.toNat + 1 ≤ start.toNat + fuel) {w : SSDBImpl}
    (hw : w.faults.write = []) :
    ∃ db, (delRangeFrom last fuel start w).2 = { w with ldb := db } ∧
      Cleared w.ldb db (Set.Icc start.toNat last.toNat) := by
  obtain ⟨hbinlogs, hquiet, hbook, hseq, hget⟩ := delRangeFrom_removed hlast fuel start hfuel w
  generalize (delRangeFrom last fuel start w).2 = w' at hbinlogs hquiet hbook hseq hget ⊢
  obtain ⟨db, binlogs, faults⟩ := w'
  obtain rfl : binlogs = w.binlogs := hbinlogs
  obtain rfl : faults = w.faults := hquiet hw
  refine ⟨db, rfl, logSeqs_ext (fun n hn => logSeqs_lt hn.1) fun x => ?_, hbook, hseq⟩
  have hreached : reached last.toNat w.faults.write start.toNat = max start.toNat (last.toNat + 1) := by
    rw [hw, reached]
  rw [hget, hreached, Set.mem_sdiff, mem_logSeqs, Set.mem_Icc]
  split_ifs with h
  · exact iff_of_false (fun h' => h' rfl) fun h' => h'.2 (by omega)
  · exact ⟨fun h' => ⟨h', by omega⟩, And.left⟩

theorem delRange_spec (start : UInt64) {last : UInt64} (hlast : last.toNat + 1 < 2 ^ 64)
    {w : SSDBImpl} (hw : w.faults.write = []) :
    ∃ db, (delRange start last w).2 = { w with ldb := db } ∧
      Cleared w.ldb db (Set.Icc start.toNat last.toNat) :=
  delRangeFrom_spec hlast _ (by omega) hw

end Binlogs
