import Ssdb.Api.Queue
import Ssdb.Plan.Zset

namespace Fetched

def seq : Fetched → Int × UInt64
  | found val => if val.length ≠ 8 then (-1, 0) else (1, Endian.ofMemory val)
  | notFound => (0, 0)
  | failed => (-1, 0)

def qsize : Fetched → Int64
  | found val => if val.length ≠ 8 then -1 else (Endian.ofMemory val).toInt64
  | notFound => 0
  | failed => -1

end Fetched

namespace SSDBImpl
open Keys Binlogs

variable {w : SSDBImpl}

def readSeq (db : LevelDB) (name : Bytes) (seq : UInt64) : Int × UInt64 :=
  match db.table.get (encodeQitemKey name seq) with
  | none => (0, 0)
  | some val => if val.length ≠ 8 then (-1, 0) else (1, Endian.ofMemory val)

def readQsize (db : LevelDB) (name : Bytes) : Int64 :=
  match db.table.get (encodeQsizeKey name) with
  | none => 0
  | some val => if val.length ≠ 8 then -1 else (Endian.ofMemory val).toInt64

theorem qgetUint64_apply (name : Bytes) (seq : UInt64) (h : w.faults.get = []) :
    qgetUint64 name seq w = (readSeq w.ldb name seq, w) := by
  simp only [qgetUint64, qgetBySeq, readSeq]
  rw [M.bind_apply, getRecord_apply _ h, LevelDB.readRecord]
  cases w.ldb.table.get (encodeQitemKey name seq) with
  | none => rfl
  | some val =>
    simp only [if_true, Option.getD_some, M.ite_apply]
    split_ifs <;> rfl

theorem qsize_apply (name : Bytes) (h : w.faults.get = []) :
    qsize name w = (readQsize w.ldb name, w) := by
  simp only [qsize, readQsize]
  rw [M.bind_apply, LevelDB.Get_apply _ h, LevelDB.fetch]
  cases w.ldb.table.get (encodeQsizeKey name) with
  | none => rfl
  | some val =>
    simp only [M.ite_apply]
    split_ifs <;> rfl

theorem qpeek_apply (endSeq : UInt64) (name : Bytes) (h : w.faults.get = []) :
    qpeek endSeq name w =
      (if (readSeq w.ldb name endSeq).1 = -1 then (-1, none)
        else if (readSeq w.ldb name endSeq).1 = 0 then (0, none)
        else w.ldb.readRecord (encodeQitemKey name (readSeq w.ldb name endSeq).2), w) := by
  simp only [qpeek]
  rw [M.bind_apply, qgetUint64_apply _ _ h]
  simp only [M.ite_apply]
  split_ifs
  · rfl
  · rfl
  · exact getRecord_apply _ h

theorem fetch_seq (db : LevelDB) (name : Bytes) (seq : UInt64) :
    (db.fetch (encodeQitemKey name seq)).seq = readSeq db name seq := by
  simp only [LevelDB.fetch, readSeq]
  cases db.table.get (encodeQitemKey name seq) <;> rfl

theorem fetch_qsize (db : LevelDB) (name : Bytes) :
    (db.fetch (encodeQsizeKey name)).qsize = readQsize db name := by
  simp only [LevelDB.fetch, readQsize]
  cases db.table.get (encodeQsizeKey name) <;> rfl

section reads
variable {β : Type} {recs : List Rec} {name : Bytes}

theorem qgetUint64_bind (seq : UInt64) (f : Int × UInt64 → M β) :
    qgetUint64 name seq >>= f = LevelDB.Get (encodeQitemKey name seq) >>= fun r => f r.seq := by
  have hget : qgetUint64 name seq = LevelDB.Get (encodeQitemKey name seq) >>= fun r => pure r.seq := by
    refine (getRecord_bind _).trans (congrArg _ (funext fun r => ?_))
    cases r with
    | found val =>
      simp only [Fetched.record, Fetched.seq, if_true, Option.getD_some]
      rcases eq_or_ne val.length 8 with h8 | h8
      · simp only [h8, ne_eq, not_true, if_false]
      · simp only [h8, ne_eq, not_false_eq_true, if_true]
    | notFound => rfl
    | failed => rfl
  rw [hget]
  rfl

theorem qsize_bind (f : Int64 → M β) :
    qsize name >>= f = LevelDB.Get (encodeQsizeKey name) >>= fun r => f r.qsize := by
  funext w
  simp only [qsize, M.bind_apply]
  cases (LevelDB.Get (encodeQsizeKey name) w).1 with
  | found val =>
    simp only [Fetched.qsize, M.ite_apply]
    split_ifs <;> rfl
  | notFound => rfl
  | failed => rfl

theorem qgetUint64_ends {seq : UInt64} {f : Int × UInt64 → M β}
    {S : Fetched → Inquiry Bytes Fetched (Plan β)} (h : ∀ r : Fetched, Ends recs (f r.seq) (S r)) :
    Ends recs (qgetUint64 name seq >>= f) (.ask (encodeQitemKey name seq) S) := by
  rw [qgetUint64_bind]
  exact Ends.get h

theorem qsize_ends {f : Int64 → M β} {S : Fetched → Inquiry Bytes Fetched (Plan β)}
    (h : ∀ r : Fetched, Ends recs (f r.qsize) (S r)) :
    Ends recs (qsize name >>= f) (.ask (encodeQsizeKey name) S) := by
  rw [qsize_bind]
  exact Ends.get h

end reads

def qsetOneDraft (name : Bytes) (seq : UInt64) (item : Bytes) : Int × List Rec :=
  if name.length > SSDB_KEY_LEN_MAX then (-1, []) else (0, [.put (encodeQitemKey name seq) item])

theorem qsetOne_apply (name : Bytes) (seq : UInt64) (item : Bytes) (recs : List Rec) :
    qsetOne name seq item (w.record recs) =
      ((qsetOneDraft name seq item).1, w.record (recs ++ (qsetOneDraft name seq item).2)) := by
  simp only [qsetOne, qsetOneDraft]
  split_ifs
  · simp [M.pure_apply]
  · simp [M.map_apply, Put_apply]

def countedItems (size : Int64) (name : Bytes) (incr : Int64) : Int64 × List Rec :=
  if size = -1 then (-1, [])
  else
    (size + incr,
      if size + incr ≤ 0 then
        [.delete (encodeQsizeKey name), .delete (encodeQitemKey name QFRONT_SEQ),
          .delete (encodeQitemKey name QBACK_SEQ)]
      else [.put (encodeQsizeKey name) (Endian.memory (size + incr).toUInt64)])

def incrQsizeDraft (db : LevelDB) (name : Bytes) (incr : Int64) : Int64 × List Rec :=
  let size := readQsize db name
  if size = -1 then (-1, [])
  else
    (size + incr,
      if size + incr ≤ 0 then
        [.delete (encodeQsizeKey name), .delete (encodeQitemKey name QFRONT_SEQ),
          .delete (encodeQitemKey name QBACK_SEQ)]
      else [.put (encodeQsizeKey name) (Endian.memory (size + incr).toUInt64)])

theorem incrQsize_ends {β : Type} {recs : List Rec} {name : Bytes} {incr : Int64}
    {f : Int64 → M β} {S : Fetched → Inquiry Bytes Fetched (Plan β)}
    (h : ∀ r : Fetched, Ends (recs ++ (countedItems r.qsize name incr).2)
      (f (countedItems r.qsize name incr).1) (S r)) :
    Ends recs (incrQsize name incr >>= f) (.ask (encodeQsizeKey name) S) := by
  have hbind : incrQsize name incr >>= f = qsize name >>= fun size =>
      if size = -1 then f (-1)
      else if size + incr ≤ 0 then do
        Binlogs.Delete (encodeQsizeKey name)
        Binlogs.Delete (encodeQitemKey name QFRONT_SEQ)
        Binlogs.Delete (encodeQitemKey name QBACK_SEQ)
        f (size + incr)
      else Binlogs.Put (encodeQsizeKey name) (Endian.memory (size + incr).toUInt64) >>= fun _ =>
        f (size + incr) := by
    funext w
    simp only [incrQsize, qdelOne, M.bind_apply, M.ite_apply]
    split_ifs <;> rfl
  rw [hbind]
  refine qsize_ends fun r => ?_
  have hr := h r
  simp only [countedItems] at hr
  split_ifs at hr ⊢
  · rwa [List.append_nil] at hr
  · refine Ends.delete (Ends.delete (Ends.delete ?_))
    rw [List.append_assoc, List.append_assoc]
    exact hr
  · exact Ends.put hr

def pushSeqDraft (name : Bytes) (frontOrBackSeq : UInt64) (ret : Int) (seq : UInt64) :
    (Int × UInt64) × List Rec :=
  if ret = 0 then
    let front := qsetOneDraft name QFRONT_SEQ (Endian.memory QITEM_SEQ_INIT)
    let back := qsetOneDraft name QBACK_SEQ (Endian.memory QITEM_SEQ_INIT)
    if front.1 = -1 then ((-1, QITEM_SEQ_INIT), front.2)
    else ((back.1, QITEM_SEQ_INIT), front.2 ++ back.2)
  else
    let seq := if frontOrBackSeq = QFRONT_SEQ then seq - 1 else seq + 1
    let moved := qsetOneDraft name frontOrBackSeq (Endian.memory seq)
    ((moved.1, seq), moved.2)

theorem pushSeq_apply (name : Bytes) (frontOrBackSeq : UInt64) (ret : Int) (seq : UInt64) :
    pushSeq name frontOrBackSeq ret seq w =
      ((pushSeqDraft name frontOrBackSeq ret seq).1,
        w.record (pushSeqDraft name frontOrBackSeq ret seq).2) := by
  have hset (seq : UInt64) (item : Bytes) : qsetOne name seq item w =
      ((qsetOneDraft name seq item).1, w.record (qsetOneDraft name seq item).2) :=
    qsetOne_apply name seq item []
  simp only [pushSeq, pushSeqDraft, M.ite_apply, M.bind_apply, hset, M.pure_apply, qsetOne_apply]
  split_ifs <;> rfl

def pushLog (frontOrBackSeq : UInt64) (t : Byte) (key : Bytes) : Rec :=
  .log t (if frontOrBackSeq = QFRONT_SEQ then BinlogCommand.QPUSH_FRONT
    else BinlogCommand.QPUSH_BACK) key

def qpushAsk (name item : Bytes) (frontOrBackSeq : UInt64) (t : Byte) :
    Inquiry Bytes Fetched (Plan Int64) :=
  .ask (encodeQitemKey name frontOrBackSeq) fun r =>
    let draft := pushSeqDraft name frontOrBackSeq r.seq.1 r.seq.2
    let seq := draft.1.2
    let put := qsetOneDraft name seq item
    let recs := draft.2 ++ put.2 ++ [pushLog frontOrBackSeq t (encodeQitemKey name seq)]
    if r.seq.1 = -1 then .done (.abort [] (-1))
    else if draft.1.1 = -1 then .done (.abort draft.2 (-1))
    else if seq ≤ QITEM_MIN_SEQ ∨ seq ≥ QITEM_MAX_SEQ then .done (.abort draft.2 (-1))
    else if put.1 = -1 then .done (.abort (draft.2 ++ put.2) (-1))
    else .ask (encodeQsizeKey name) fun s =>
      let count := countedItems s.qsize name 1
      if count.1 = -1 then .done (.abort (recs ++ count.2) (-1))
      else .done (.commit (recs ++ count.2) count.1 (-1))

theorem qpush_play (name item : Bytes) (frontOrBackSeq : UInt64) (t : Byte) :
    qpush name item frontOrBackSeq t = (qpushAsk name item frontOrBackSeq t).play := by
  refine Ends.transaction (qgetUint64_ends fun r => ?_) fun r => ?_
  · refine Ends.ite (fun _ => Ends.pure (-1)) fun _ =>
      Ends.step (fun w => pushSeq_apply name frontOrBackSeq r.seq.1 r.seq.2) ?_
    refine Ends.ite (fun _ => Ends.pure (-1)) fun _ => Ends.ite (fun _ => Ends.pure (-1)) fun _ =>
      Ends.step (fun w => qsetOne_apply name _ item _) (Ends.ite (fun _ => Ends.pure (-1)) fun _ => ?_)
    exact Ends.log_ite (incrQsize_ends fun s => Ends.ite (fun _ => Ends.pure (-1)) fun _ =>
      Ends.commit _ (-1))
  · refine Inquiry.every_ite (fun _ => trivial) fun _ => Inquiry.every_ite (fun _ => trivial) fun _ =>
      Inquiry.every_ite (fun _ => trivial) fun _ => Inquiry.every_ite (fun _ => trivial) fun _ s => ?_
    exact Inquiry.every_ite (fun _ => trivial) fun _ => trivial

def qpushPlan (db : LevelDB) (name item : Bytes) (frontOrBackSeq : UInt64) (t : Byte) :
    Plan Int64 :=
  let found := readSeq db name frontOrBackSeq
  let draft := pushSeqDraft name frontOrBackSeq found.1 found.2
  let seq := draft.1.2
  let put := qsetOneDraft name seq item
  let count := incrQsizeDraft db name 1
  let recs := draft.2 ++ put.2 ++ [pushLog frontOrBackSeq t (encodeQitemKey name seq)] ++ count.2
  if found.1 = -1 then .abort [] (-1)
  else if draft.1.1 = -1 then .abort draft.2 (-1)
  else if seq ≤ QITEM_MIN_SEQ ∨ seq ≥ QITEM_MAX_SEQ then .abort draft.2 (-1)
  else if put.1 = -1 then .abort (draft.2 ++ put.2) (-1)
  else if count.1 = -1 then .abort recs (-1)
  else .commit recs count.1 (-1)

theorem qpush_plan (name item : Bytes) (frontOrBackSeq : UInt64) (t : Byte)
    (h : w.faults.get = []) :
    qpush name item frontOrBackSeq t w = (qpushPlan w.ldb name item frontOrBackSeq t).run w := by
  have hcount : countedItems (readQsize w.ldb name) name 1 = incrQsizeDraft w.ldb name 1 := rfl
  rw [qpush_play, Inquiry.play_answered _ h]
  congr 1
  simp only [qpushAsk, qpushPlan, Inquiry.answered, Inquiry.answered_ite, fetch_seq, fetch_qsize,
    hcount]

def popLog (frontOrBackSeq : UInt64) (t : Byte) (name : Bytes) : Rec :=
  .log t (if frontOrBackSeq = QFRONT_SEQ then BinlogCommand.QPOP_FRONT
    else BinlogCommand.QPOP_BACK) name

theorem qdelOne_apply (name : Bytes) (seq : UInt64) :
    qdelOne name seq w = (0, w.record [.delete (encodeQitemKey name seq)]) := by
  simp only [qdelOne, M.bind_apply, Delete_apply, M.pure_apply]

def qpopAsk (name : Bytes) (frontOrBackSeq : UInt64) (t : Byte) :
    Inquiry Bytes Fetched (Plan (Int × Option Bytes)) :=
  .ask (encodeQitemKey name frontOrBackSeq) fun r =>
    if r.seq.1 = -1 then .done (.abort [] (-1, none))
    else if r.seq.1 = 0 then .done (.abort [] (0, none))
    else .ask (encodeQitemKey name r.seq.2) fun i =>
      let item := i.record.2
      let recs := [.delete (encodeQitemKey name r.seq.2)] ++ [popLog frontOrBackSeq t name]
      if i.record.1 = -1 then .done (.abort [] (-1, none))
      else if i.record.1 = 0 then .done (.abort [] (0, none))
      else .ask (encodeQsizeKey name) fun s =>
        let count := countedItems s.qsize name (-1)
        let seq := if frontOrBackSeq = QFRONT_SEQ then r.seq.2 + 1 else r.seq.2 - 1
        let moved := qsetOneDraft name frontOrBackSeq (Endian.memory seq)
        if count.1 = -1 then .done (.abort (recs ++ count.2) (-1, item))
        else if count.1 > 0 then
          if moved.1 = -1 then .done (.abort (recs ++ count.2 ++ moved.2) (-1, item))
          else .done (.commit (recs ++ count.2 ++ moved.2) (1, item) (-1, item))
        else .done (.commit (recs ++ count.2) (1, item) (-1, item))

theorem qpop_play (name : Bytes) (frontOrBackSeq : UInt64) (t : Byte) :
    qpop name frontOrBackSeq t = (qpopAsk name frontOrBackSeq t).play := by
  have hcommit (item : Option Bytes) (recs : List Rec) :
      Ends recs (do return (← commitOr 1, item)) (.done (.commit recs (1, item) (-1, item))) :=
    Ends.map (·, item) (commitOr_ends 1 recs)
  refine Ends.transaction (qgetUint64_ends fun r => ?_) fun r => ?_
  · refine Ends.ite (fun _ => Ends.pure _) fun _ => Ends.ite (fun _ => Ends.pure _) fun _ =>
      Ends.record fun i => ?_
    refine Ends.ite (fun _ => Ends.pure _) fun _ => Ends.ite (fun _ => Ends.pure _) fun _ =>
      Ends.step (fun w => qdelOne_apply name r.seq.2) ?_
    exact Ends.log_ite (incrQsize_ends fun s => Ends.ite (fun _ => Ends.pure _) fun _ => Ends.ite
      (fun _ => Ends.step (fun w => qsetOne_apply name _ _ _)
        (Ends.ite (fun _ => Ends.pure _) fun _ => hcommit _ _))
      fun _ => hcommit _ _)
  · refine Inquiry.every_ite (fun _ => trivial) fun _ => Inquiry.every_ite (fun _ => trivial) fun _ i =>
      Inquiry.every_ite (fun _ => trivial) fun _ => Inquiry.every_ite (fun _ => trivial) fun _ s => ?_
    exact Inquiry.every_ite (fun _ => trivial) fun _ => Inquiry.every_ite
      (fun _ => Inquiry.every_ite (fun _ => trivial) fun _ => trivial) fun _ => trivial

def qpopPlan (db : LevelDB) (name : Bytes) (frontOrBackSeq : UInt64) (t : Byte) :
    Plan (Int × Option Bytes) :=
  let found := readSeq db name frontOrBackSeq
  let item := db.readRecord (encodeQitemKey name found.2)
  let count := incrQsizeDraft db name (-1)
  let recs := [.delete (encodeQitemKey name found.2)] ++ [popLog frontOrBackSeq t name] ++ count.2
  let seq := if frontOrBackSeq = QFRONT_SEQ then found.2 + 1 else found.2 - 1
  let moved := qsetOneDraft name frontOrBackSeq (Endian.memory seq)
  if found.1 = -1 then .abort [] (-1, none)
  else if found.1 = 0 then .abort [] (0, none)
  else if item.1 = -1 then .abort [] (-1, none)
  else if item.1 = 0 then .abort [] (0, none)
  else if count.1 = -1 then .abort recs (-1, item.2)
  else if count.1 > 0 then
    if moved.1 = -1 then .abort (recs ++ moved.2) (-1, item.2)
    else .commit (recs ++ moved.2) (1, item.2) (-1, item.2)
  else .commit recs (1, item.2) (-1, item.2)

theorem qpop_plan (name : Bytes) (frontOrBackSeq : UInt64) (t : Byte) (h : w.faults.get = []) :
    qpop name frontOrBackSeq t w = (qpopPlan w.ldb name frontOrBackSeq t).run w := by
  have hcount : countedItems (readQsize w.ldb name) name (-1) = incrQsizeDraft w.ldb name (-1) := rfl
  rw [qpop_play, Inquiry.play_answered _ h]
  congr 1
  simp only [qpopAsk, qpopPlan, Inquiry.answered, Inquiry.answered_ite, fetch_seq, fetch_qsize,
    LevelDB.fetch_record, hcount]

def setItemPlan (name : Bytes) (seq : UInt64) (item : Bytes) (t : Byte) : Plan Int :=
  let put := qsetOneDraft name seq item
  if put.1 = -1 then .abort put.2 (-1)
  else .commit (put.2 ++ [.log t BinlogCommand.QSET (encodeQitemKey name seq)]) 1 (-1)

def qsetBySeqPlan (db : LevelDB) (name : Bytes) (seq : UInt64) (item : Bytes) (t : Byte) :
    Plan Int :=
  let size := readQsize db name
  let front := readSeq db name QFRONT_SEQ
  if size = -1 then .abort [] (-1)
  else if front.1 = -1 then .abort [] (-1)
  else if seq < front.2 ∨ seq > front.2 + size.toUInt64 then .abort [] 0
  else setItemPlan name seq item t

theorem setItem_ends (name : Bytes) (seq : UInt64) (item : Bytes) (t : Byte) :
    Ends [] (do
      if (← qsetOne name seq item) = -1 then return -1
      else
        addLog t BinlogCommand.QSET (encodeQitemKey name seq)
        commitOr 1) (.done (setItemPlan name seq item t)) := by
  refine Ends.step (fun w => qsetOne_apply name seq item []) ?_
  simp only [setItemPlan]
  split_ifs
  · exact Ends.pure (-1)
  · exact Ends.log (commitOr_ends 1 _)

theorem setItemPlan_opened (name : Bytes) (seq : UInt64) (item : Bytes) (t : Byte) :
    (setItemPlan name seq item t).Opened := by
  simp only [setItemPlan]
  split_ifs <;> trivial

def qsetBySeqAsk (name : Bytes) (seq : UInt64) (item : Bytes) (t : Byte) :
    Inquiry Bytes Fetched (Plan Int) :=
  .ask (encodeQsizeKey name) fun s =>
    if s.qsize = -1 then .done (.abort [] (-1))
    else .ask (encodeQitemKey name QFRONT_SEQ) fun r =>
      if r.seq.1 = -1 then .done (.abort [] (-1))
      else if seq < r.seq.2 ∨ seq > r.seq.2 + s.qsize.toUInt64 then .done (.abort [] 0)
      else .done (setItemPlan name seq item t)

theorem qsetBySeq_play (name : Bytes) (seq : UInt64) (item : Bytes) (t : Byte) :
    qsetBySeq name seq item t = (qsetBySeqAsk name seq item t).play := by
  refine Ends.transaction (qsize_ends fun s => ?_) fun s => ?_
  · refine Ends.ite (fun _ => Ends.pure (-1)) fun _ => qgetUint64_ends fun r => ?_
    exact Ends.ite (fun _ => Ends.pure (-1)) fun _ => Ends.ite (fun _ => Ends.pure 0) fun _ =>
      setItem_ends name seq item t
  · refine Inquiry.every_ite (fun _ => trivial) fun _ r => ?_
    exact Inquiry.every_ite (fun _ => trivial) fun _ => Inquiry.every_ite (fun _ => trivial) fun _ =>
      setItemPlan_opened name seq item t

theorem qsetBySeq_plan (name : Bytes) (seq : UInt64) (item : Bytes) (t : Byte)
    (h : w.faults.get = []) :
    qsetBySeq name seq item t w = (qsetBySeqPlan w.ldb name seq item t).run w := by
  rw [qsetBySeq_play, Inquiry.play_answered _ h]
  congr 1
  simp only [qsetBySeqAsk, qsetBySeqPlan, Inquiry.answered, Inquiry.answered_ite, fetch_qsize,
    fetch_seq]

def readSeqOf (db : LevelDB) (name : Bytes) (index : Int64) : Int × UInt64 :=
  if index ≥ 0 then
    ((readSeq db name QFRONT_SEQ).1, (readSeq db name QFRONT_SEQ).2 + index.toUInt64)
  else ((readSeq db name QBACK_SEQ).1, (readSeq db name QBACK_SEQ).2 + (index + 1).toUInt64)

def endOf (index : Int64) : UInt64 := if index ≥ 0 then QFRONT_SEQ else QBACK_SEQ

def placed (index : Int64) (found : Int × UInt64) : Int × UInt64 :=
  (found.1, found.2 + if index ≥ 0 then index.toUInt64 else (index + 1).toUInt64)

theorem seqOf_bind {β : Type} (name : Bytes) (index : Int64) (f : Int × UInt64 → M β) :
    seqOf name index >>= f =
      qgetUint64 name (endOf index) >>= fun found => f (placed index found) := by
  simp only [seqOf, endOf, placed]
  split_ifs <;> rfl

theorem readSeqOf_eq (db : LevelDB) (name : Bytes) (index : Int64) :
    readSeqOf db name index = placed index (readSeq db name (endOf index)) := by
  simp only [readSeqOf, placed, endOf]
  split_ifs <;> rfl

def qsetPlan (db : LevelDB) (name : Bytes) (index : Int64) (item : Bytes) (t : Byte) : Plan Int :=
  let size := readQsize db name
  let found := readSeqOf db name index
  if size = -1 then .abort [] (-1)
  else if index ≥ size ∨ index < -size then .abort [] 0
  else if found.1 = -1 then .abort [] (-1)
  else if found.1 = 0 then .abort [] 0
  else setItemPlan name found.2 item t

def qsetAsk (name : Bytes) (index : Int64) (item : Bytes) (t : Byte) :
    Inquiry Bytes Fetched (Plan Int) :=
  .ask (encodeQsizeKey name) fun s =>
    if s.qsize = -1 then .done (.abort [] (-1))
    else if index ≥ s.qsize ∨ index < -s.qsize then .done (.abort [] 0)
    else .ask (encodeQitemKey name (endOf index)) fun r =>
      if r.seq.1 = -1 then .done (.abort [] (-1))
      else if r.seq.1 = 0 then .done (.abort [] 0)
      else .done (setItemPlan name (placed index r.seq).2 item t)

theorem qset_play (name : Bytes) (index : Int64) (item : Bytes) (t : Byte) :
    qset name index item t = (qsetAsk name index item t).play := by
  refine Ends.transaction (qsize_ends fun s => ?_) fun s => ?_
  · refine Ends.ite (fun _ => Ends.pure (-1)) fun _ => Ends.ite (fun _ => Ends.pure 0) fun _ => ?_
    rw [seqOf_bind]
    exact qgetUint64_ends fun r => Ends.ite (fun _ => Ends.pure (-1)) fun _ =>
      Ends.ite (fun _ => Ends.pure 0) fun _ => setItem_ends name _ item t
  · refine Inquiry.every_ite (fun _ => trivial) fun _ => Inquiry.every_ite (fun _ => trivial) fun _ r => ?_
    exact Inquiry.every_ite (fun _ => trivial) fun _ => Inquiry.every_ite (fun _ => trivial) fun _ =>
      setItemPlan_opened name _ item t

theorem qset_plan (name : Bytes) (index : Int64) (item : Bytes) (t : Byte)
    (h : w.faults.get = []) :
    qset name index item t w = (qsetPlan w.ldb name index item t).run w := by
  rw [qset_play, Inquiry.play_answered _ h]
  congr 1
  simp only [qsetAsk, qsetPlan, Inquiry.answered, Inquiry.answered_ite, fetch_qsize, fetch_seq,
    readSeqOf_eq]
  rfl

def qfixEntries (db : LevelDB) (name : Bytes) : List (Bytes × Bytes) :=
  rawEntries (db.iterator (encodeQitemKey name (QITEM_MIN_SEQ - 1))
    (encodeQitemKey name QITEM_MAX_SEQ) QITEM_MAX_SEQ.toNat)

def qfixPlan (db : LevelDB) (name : Bytes) : Plan Int :=
  match qfixScan (qfixEntries db name) ⟨0, 0, 0⟩ with
  | none => .abort [] (-1)
  | some f =>
    let front := qsetOneDraft name QFRONT_SEQ (Endian.memory f.seqMin)
    let back := qsetOneDraft name QBACK_SEQ (Endian.memory f.seqMax)
    if f.count = 0 then
      .commit [.delete (encodeQsizeKey name), .delete (encodeQitemKey name QFRONT_SEQ),
        .delete (encodeQitemKey name QBACK_SEQ)] 0 (-1)
    else
      .commit ([.put (encodeQsizeKey name) (Endian.memory f.count)] ++ front.2 ++ back.2) 0 (-1)

theorem qfix_plan (name : Bytes) : qfix name w = (qfixPlan w.ldb name).run w := by
  have hscan : qfix name = Binlogs.transaction (do
      match qfixScan (qfixEntries (← MonadState.get).ldb name) ⟨0, 0, 0⟩ with
      | none => return -1
      | some f =>
        if f.count = 0 then
          Binlogs.Delete (encodeQsizeKey name)
          let _ ← qdelOne name QFRONT_SEQ
          let _ ← qdelOne name QBACK_SEQ
        else
          Binlogs.Put (encodeQsizeKey name) (Endian.memory f.count)
          let _ ← qsetOne name QFRONT_SEQ (Endian.memory f.seqMin)
          let _ ← qsetOne name QBACK_SEQ (Endian.memory f.seqMax)
        commitOr 0) := rfl
  rw [hscan, qfixPlan]
  cases hf : qfixScan (qfixEntries w.ldb name) ⟨0, 0, 0⟩ with
  | none =>
    refine Plan.transaction_run w trivial ?_
    rw [M.bind_apply, M.get_apply]
    simp only [opened, hf]
    rfl
  | some f =>
    refine Plan.transaction_run w ?_ ?_
    · dsimp only
      split_ifs <;> trivial
    · have hldb : w.opened.ldb = w.ldb := rfl
      rw [M.bind_apply, M.get_apply]
      dsimp only
      rw [hldb, hf]
      simp only [M.ite_apply, M.bind_apply, Delete_apply, Put_apply, qdelOne_apply, qsetOne_apply,
        record_record, commitOr_apply, Plan.body_ite]
      rfl

end SSDBImpl
