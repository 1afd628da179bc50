import Ssdb.Store.Binlog

inductive Rec where
  | put (key value : Bytes)
  | delete (key : Bytes)
  | log (type cmd : Byte) (key : Bytes)
deriving DecidableEq, Repr

def BinlogQueue.record (q : BinlogQueue) : Rec → BinlogQueue
  | .put key value => q.Put key value
  | .delete key => q.Delete key
  | .log type cmd key => q.addLog type cmd key

def BinlogQueue.recordAll (q : BinlogQueue) (recs : List Rec) : BinlogQueue :=
  recs.foldl BinlogQueue.record q

def SSDBImpl.record (w : SSDBImpl) (recs : List Rec) : SSDBImpl :=
  { w with binlogs := w.binlogs.recordAll recs }

inductive Plan (α : Type) where
  | reject (r : α)
  | abort (recs : List Rec) (r : α)
  | commit (recs : List Rec) (ok fail : α)

namespace Plan
variable {α : Type}

def body : Plan α → M α
  | reject r => pure r
  | abort recs r => fun w => (r, w.record recs)
  | commit recs ok fail => fun w =>
    if (Binlogs.commit (w.record recs)).1 then (ok, (Binlogs.commit (w.record recs)).2)
    else (fail, (Binlogs.commit (w.record recs)).2)

def run : Plan α → M α
  | reject r => pure r
  | abort recs r => Binlogs.transaction (body (abort recs r))
  | commit recs ok fail => Binlogs.transaction (body (commit recs ok fail))

def Opened : Plan α → Prop
  | reject _ => False
  | abort _ _ => True
  | commit _ _ _ => True

def map {β : Type} (f : α → β) : Plan α → Plan β
  | reject r => reject (f r)
  | abort recs r => abort recs (f r)
  | commit recs ok fail => commit recs (f ok) (f fail)

end Plan

def SSDBImpl.opened (w : SSDBImpl) : SSDBImpl := { w with binlogs := w.binlogs.begin }

namespace M
variable {α β : Type}

theorem bind_apply (x : M α) (f : α → M β) (w : SSDBImpl) : (x >>= f) w = f (x w).1 (x w).2 := rfl

theorem pure_apply (a : α) (w : SSDBImpl) : (pure a : M α) w = (a, w) := rfl

theorem map_apply (f : α → β) (x : M α) (w : SSDBImpl) : (f <$> x) w = (f (x w).1, (x w).2) := rfl

theorem get_apply (w : SSDBImpl) : (MonadState.get : M SSDBImpl) w = (w, w) := rfl

theorem ite_apply (c : Prop) [Decidable c] (x y : M α) (w : SSDBImpl) :
    (if c then x else y) w = if c then x w else y w := by
  split_ifs <;> rfl

end M

namespace SSDBImpl

@[simp] theorem record_ldb (w : SSDBImpl) (recs : List Rec) : (w.record recs).ldb = w.ldb := rfl

@[simp] theorem record_faults (w : SSDBImpl) (recs : List Rec) :
    (w.record recs).faults = w.faults := rfl

@[simp] theorem record_nil (w : SSDBImpl) : w.record [] = w := rfl

@[simp] theorem record_record (w : SSDBImpl) (a b : List Rec) :
    (w.record a).record b = w.record (a ++ b) := by
  simp [record, BinlogQueue.recordAll]

theorem Write_ok (batch : List BatchOp) {w : SSDBImpl} (h : w.faults.write.head? ≠ some true) :
    LevelDB.Write batch w = (true, { w with
      ldb := w.ldb.write batch
      faults := { w.faults with write := w.faults.write.tail } }) := if_neg h

theorem Write_failed (batch : List BatchOp) {w : SSDBImpl} (h : w.faults.write.head? = some true) :
    LevelDB.Write batch w =
      (false, { w with faults := { w.faults with write := w.faults.write.tail } }) := if_pos h

end SSDBImpl

namespace Binlogs

theorem Put_apply (key value : Bytes) (w : SSDBImpl) :
    Put key value w = ((), w.record [.put key value]) := rfl

theorem Delete_apply (key : Bytes) (w : SSDBImpl) :
    Delete key w = ((), w.record [.delete key]) := rfl

theorem addLog_apply (type cmd : Byte) (key : Bytes) (w : SSDBImpl) :
    addLog type cmd key w = ((), w.record [.log type cmd key]) := rfl

theorem commit_ok {w : SSDBImpl} (h : w.faults.write.head? ≠ some true) :
    commit w = (true, { ldb := w.ldb.write w.binlogs.batch
                        binlogs := { w.binlogs with lastSeq := w.binlogs.tranSeq, tranSeq := 0 }
                        faults := { w.faults with write := w.faults.write.tail } }) := by
  simp [commit, LevelDB.Write, h]

theorem commit_failed {w : SSDBImpl} (h : w.faults.write.head? = some true) :
    commit w = (false, { w with faults := { w.faults with write := w.faults.write.tail } }) := by
  simp [commit, LevelDB.Write, h]

end Binlogs

def LevelDB.readRecord (db : LevelDB) (dbkey : Bytes) : Int × Option Bytes :=
  match db.table.get dbkey with
  | none => (0, none)
  | some val => (1, some val)

def LevelDB.readCount (db : LevelDB) (sizeKey : Bytes) : Int64 :=
  match db.table.get sizeKey with
  | none => 0
  | some val =>
    if val.length ≠ 8 then 0
    else if (Endian.ofMemory val).toInt64 < 0 then 0 else (Endian.ofMemory val).toInt64

theorem LevelDB.Get_apply (key : Bytes) {w : SSDBImpl} (h : w.faults.get = []) :
    LevelDB.Get key w = (w.ldb.fetch key, w) := by
  obtain ⟨ldb, binlogs, ⟨g, f⟩⟩ := w
  subst h
  rfl

def dataOf (t : OrdMap Bytes Bytes) (key : Bytes) : Option Bytes :=
  if key.head? = some DataType.SYNCLOG then none else t.get key

def LevelDB.data (db : LevelDB) : Bytes → Option Bytes := dataOf db.table

theorem LevelDB.data_eq {db : LevelDB} {key : Bytes} (h : key.head? ≠ some DataType.SYNCLOG) :
    db.data key = db.table.get key := if_neg h

theorem Keys.kvKey_data (key : Bytes) : (encodeKvKey key).head? ≠ some DataType.SYNCLOG := by
  simp [encodeKvKey, DataType.KV, DataType.SYNCLOG, Strings.charByte]

theorem dataOf_insert (t : OrdMap Bytes Bytes) {key : Bytes} (value : Bytes)
    (h : key.head? ≠ some DataType.SYNCLOG) :
    dataOf (t.insert key value) = Function.update (dataOf t) key (some value) := by
  funext k
  simp only [dataOf, OrdMap.get_insert, Function.update_apply]
  split_ifs with h1 h2 h3 <;> simp_all

theorem dataOf_erase (t : OrdMap Bytes Bytes) (key : Bytes) :
    dataOf (t.erase key) = Function.update (dataOf t) key none := by
  funext k
  simp only [dataOf, OrdMap.get_erase, Function.update_apply]
  split_ifs <;> rfl

theorem dataOf_log (t : OrdMap Bytes Bytes) (seq : UInt64) (value : Bytes) :
    dataOf (t.insert (Keys.encodeSeqKey seq) value) = dataOf t := by
  funext k
  simp only [dataOf, OrdMap.get_insert]
  split_ifs with h1 h2
  · rfl
  · subst h2
    exact absurd rfl h1
  · rfl

namespace Rec

def effect (d : Bytes → Option Bytes) : Rec → Bytes → Option Bytes
  | put key value => Function.update d key (some value)
  | delete key => Function.update d key none
  | log _ _ _ => d

def OnData : Rec → Prop
  | put key _ => key.head? ≠ some DataType.SYNCLOG
  | delete _ => True
  | log _ _ _ => True

end Rec

namespace BinlogQueue

theorem recordAll_cons (q : BinlogQueue) (r : Rec) (recs : List Rec) :
    q.recordAll (r :: recs) = (q.record r).recordAll recs := rfl

theorem record_data (q : BinlogQueue) {r : Rec} (t : OrdMap Bytes Bytes) (h : r.OnData) :
    dataOf ((q.record r).batch.foldl BatchOp.apply t) =
      r.effect (dataOf (q.batch.foldl BatchOp.apply t)) := by
  cases r with
  | put key value => simp [record, Put, BatchOp.apply, Rec.effect, dataOf_insert _ _ h]
  | delete key => simp [record, Delete, BatchOp.apply, Rec.effect, dataOf_erase]
  | log type cmd key =>
    simp only [record, addLog, Rec.effect]
    split_ifs
    · rfl
    · simp [BatchOp.apply, dataOf_log]

theorem recordAll_data (recs : List Rec) (q : BinlogQueue) (t : OrdMap Bytes Bytes)
    (h : ∀ r ∈ recs, r.OnData) :
    dataOf ((q.recordAll recs).batch.foldl BatchOp.apply t) =
      recs.foldl Rec.effect (dataOf (q.batch.foldl BatchOp.apply t)) := by
  induction recs generalizing q with
  | nil => rfl
  | cons r recs ih =>
    rw [recordAll_cons, ih _ (fun r' hr' => h r' (by simp [hr'])), List.foldl_cons,
      record_data q t (h r (by simp))]

theorem recordAll_fixed (recs : List Rec) (q : BinlogQueue) :
    (q.recordAll recs).minSeq = q.minSeq ∧ (q.recordAll recs).lastSeq = q.lastSeq ∧
      (q.recordAll recs).capacity = q.capacity ∧ (q.recordAll recs).enabled = q.enabled := by
  induction recs generalizing q with
  | nil => exact ⟨rfl, rfl, rfl, rfl⟩
  | cons r recs ih =>
    obtain ⟨h1, h2, h3, h4⟩ := ih (q.record r)
    rw [recordAll_cons, h1, h2, h3, h4]
    cases r with
    | put key value => exact ⟨rfl, rfl, rfl, rfl⟩
    | delete key => exact ⟨rfl, rfl, rfl, rfl⟩
    | log type cmd key =>
      simp only [record, addLog]
      split_ifs <;> exact ⟨rfl, rfl, rfl, rfl⟩

end BinlogQueue

namespace SSDBImpl

def drafted (w : SSDBImpl) (recs : List Rec) : BinlogQueue := w.binlogs.begin.recordAll recs

def committed (w : SSDBImpl) (recs : List Rec) : SSDBImpl :=
  { ldb := w.ldb.write (w.drafted recs).batch
    binlogs := { (w.drafted recs) with lastSeq := (w.drafted recs).tranSeq, tranSeq := 0 }
    faults := { w.faults with write := w.faults.write.tail } }

def abandoned (w : SSDBImpl) (recs : List Rec) : SSDBImpl :=
  { w with binlogs := (w.drafted recs).rollback }

def failed (w : SSDBImpl) (recs : List Rec) : SSDBImpl :=
  { ldb := w.ldb
    binlogs := (w.drafted recs).rollback
    faults := { w.faults with write := w.faults.write.tail } }

@[simp] theorem failed_ldb (w : SSDBImpl) (recs : List Rec) : (w.failed recs).ldb = w.ldb := rfl

@[simp] theorem failed_faults (w : SSDBImpl) (recs : List Rec) :
    (w.failed recs).faults = ⟨w.faults.get, w.faults.write.tail⟩ := rfl

@[simp] theorem committed_faults (w : SSDBImpl) (recs : List Rec) :
    (w.committed recs).faults = ⟨w.faults.get, w.faults.write.tail⟩ := rfl

@[simp] theorem abandoned_ldb (w : SSDBImpl) (recs : List Rec) :
    (w.abandoned recs).ldb = w.ldb := rfl

theorem abandoned_opened (w : SSDBImpl) (recs : List Rec) :
    (w.abandoned recs).opened = w.opened := by
  obtain ⟨h1, h2, h3, h4⟩ := BinlogQueue.recordAll_fixed recs w.binlogs.begin
  simp only [opened, abandoned, drafted, BinlogQueue.rollback, BinlogQueue.begin] at h1 h2 h3 h4 ⊢
  rw [h1, h2, h3, h4]

theorem committed_data (w : SSDBImpl) {recs : List Rec} (h : ∀ r ∈ recs, r.OnData) :
    (w.committed recs).ldb.data = recs.foldl Rec.effect w.ldb.data :=
  BinlogQueue.recordAll_data recs w.binlogs.begin w.ldb.table h

end SSDBImpl

namespace Plan
variable {α : Type} (w : SSDBImpl)

def reply : Plan α → α
  | reject r => r
  | abort _ r => r
  | commit _ ok _ => ok

def recs : Plan α → List Rec
  | commit recs _ _ => recs
  | _ => []

theorem transaction_run {x : M α} {p : Plan α} (hp : p.Opened)
    (h : x w.opened = p.body w.opened) : Binlogs.transaction x w = p.run w := by
  simp only [SSDBImpl.opened] at h
  cases p with
  | reject r => exact absurd hp id
  | abort recs r => simp only [run, Binlogs.transaction, h]
  | commit recs ok fail => simp only [run, Binlogs.transaction, h]

theorem body_ite (c : Prop) [Decidable c] (p q : Plan α) :
    (if c then p else q).body w = if c then p.body w else q.body w := by
  split_ifs <;> rfl

theorem body_map {β : Type} (f : α → β) (p : Plan α) :
    (p.map f).body w = (f (p.body w).1, (p.body w).2) := by
  cases p with
  | reject r => rfl
  | abort recs r => rfl
  | commit recs ok fail =>
    simp only [map, body]
    split_ifs <;> rfl

theorem run_map {β : Type} (f : α → β) (p : Plan α) :
    (p.map f).run w = (f (p.run w).1, (p.run w).2) := by
  cases p with
  | reject r => rfl
  | abort recs r => rfl
  | commit recs ok fail =>
    have h := body_map w.opened f (commit recs ok fail)
    simp only [SSDBImpl.opened, map] at h
    simp only [map, run, Binlogs.transaction, h]
    rfl

theorem run_abort (recs : List Rec) (r : α) : (abort recs r).run w = (r, w.abandoned recs) := rfl

theorem run_commit (recs : List Rec) (ok fail : α) (h : w.faults.write.head? ≠ some true) :
    (commit recs ok fail).run w = (ok, w.committed recs) := by
  have hc := Binlogs.commit_ok (w := SSDBImpl.record { w with binlogs := w.binlogs.begin } recs) h
  simp only [run, Binlogs.transaction, body, hc, if_true]
  rfl

theorem run_commit_failed (recs : List Rec) (ok fail : α) (h : w.faults.write.head? = some true) :
    (commit recs ok fail).run w = (fail, w.failed recs) := by
  have hc := Binlogs.commit_failed (w := SSDBImpl.record { w with binlogs := w.binlogs.begin } recs) h
  simp only [run, Binlogs.transaction, body, hc, Bool.false_eq_true, if_false]
  rfl

theorem run_answered (p : Plan α) (h : w.faults = Faults.none) :
    (p.run w).1 = p.reply ∧ (p.run w).2.faults = Faults.none := by
  have hw : w.faults.write.head? ≠ some true := by simp [h, Faults.none]
  cases p with
  | reject r => exact ⟨rfl, h⟩
  | abort recs r => exact ⟨rfl, h⟩
  | commit recs ok fail =>
    rw [run_commit w recs ok fail hw]
    exact ⟨rfl, by simp [SSDBImpl.committed, h, Faults.none]⟩

theorem run_data (p : Plan α) (h : w.faults = Faults.none) (hd : ∀ r ∈ p.recs, r.OnData) :
    (p.run w).2.ldb.data = p.recs.foldl Rec.effect w.ldb.data := by
  have hw : w.faults.write.head? ≠ some true := by simp [h, Faults.none]
  cases p with
  | reject r => rfl
  | abort recs r => rfl
  | commit recs ok fail =>
    rw [run_commit w recs ok fail hw]
    exact w.committed_data hd

theorem run_sequence (p : Plan α) : w.ldb.sequence ≤ (p.run w).2.ldb.sequence := by
  cases p with
  | reject r => exact le_rfl
  | abort recs r => exact le_rfl
  | commit recs ok fail =>
    by_cases hw : w.faults.write.head? = some true
    · rw [run_commit_failed w recs ok fail hw]
      exact le_rfl
    · rw [run_commit w recs ok fail hw]
      exact Nat.le_add_right _ _

end Plan
