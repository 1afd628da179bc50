import Ssdb.Api.Kv
import Ssdb.Store.Asking

namespace Fetched

def record : Fetched → Int × Option Bytes
  | found val => (1, some val)
  | notFound => (0, none)
  | failed => (-1, none)

def count : Fetched → Int64
  | found val =>
    if val.length ≠ 8 then 0
    else if (Endian.ofMemory val).toInt64 < 0 then 0 else (Endian.ofMemory val).toInt64
  | notFound => 0
  | failed => -1

end Fetched

theorem LevelDB.fetch_record (db : LevelDB) (key : Bytes) :
    (db.fetch key).record = db.readRecord key := by
  simp only [fetch, readRecord]
  cases db.table.get key <;> rfl

theorem LevelDB.fetch_count (db : LevelDB) (key : Bytes) :
    (db.fetch key).count = db.readCount key := by
  simp only [fetch, readCount]
  cases db.table.get key <;> rfl

section reads
open SSDBImpl

variable {β : Type} {recs : List Rec} {key : Bytes}

theorem getRecord_bind (f : Int × Option Bytes → M β) :
    getRecord key >>= f = LevelDB.Get key >>= fun r => f r.record := by
  funext w
  simp only [getRecord, M.bind_apply]
  cases (LevelDB.Get key w).1 <;> rfl

theorem getCount_bind (f : Int64 → M β) :
    getCount key >>= f = LevelDB.Get key >>= fun r => f r.count := by
  funext w
  simp only [getCount, M.bind_apply]
  cases (LevelDB.Get key w).1 with
  | found val =>
    simp only [Fetched.count, M.ite_apply]
    split_ifs <;> rfl
  | notFound => rfl
  | failed => rfl

theorem Drafts.record {f : Int × Option Bytes → M β}
    {S : Fetched → Inquiry Bytes Fetched (β × List Rec)}
    (h : ∀ r : Fetched, Drafts recs (f r.record) (S r)) :
    Drafts recs (getRecord key >>= f) (.ask key S) := by
  rw [getRecord_bind]
  exact Drafts.get h

theorem Ends.record {f : Int × Option Bytes → M β} {S : Fetched → Inquiry Bytes Fetched (Plan β)}
    (h : ∀ r : Fetched, Ends recs (f r.record) (S r)) :
    Ends recs (getRecord key >>= f) (.ask key S) := by
  rw [getRecord_bind]
  exact Ends.get h

theorem Ends.count {f : Int64 → M β} {S : Fetched → Inquiry Bytes Fetched (Plan β)}
    (h : ∀ r : Fetched, Ends recs (f r.count) (S r)) :
    Ends recs (getCount key >>= f) (.ask key S) := by
  rw [getCount_bind]
  exact Ends.get h

end reads

namespace SSDBImpl
open Keys Binlogs

variable {w : SSDBImpl}

theorem getRecord_apply (dbkey : Bytes) (h : w.faults.get = []) :
    getRecord dbkey w = (w.ldb.readRecord dbkey, w) := by
  simp only [getRecord, M.bind_apply, LevelDB.Get_apply dbkey h, LevelDB.fetch,
    LevelDB.readRecord]
  cases w.ldb.table.get dbkey <;> rfl

theorem getCount_apply (sizeKey : Bytes) (h : w.faults.get = []) :
    getCount sizeKey w = (w.ldb.readCount sizeKey, w) := by
  simp only [getCount, M.bind_apply, LevelDB.Get_apply sizeKey h, LevelDB.fetch,
    LevelDB.readCount]
  cases w.ldb.table.get sizeKey with
  | none => rfl
  | some val =>
    simp only [M.ite_apply, M.pure_apply]
    split_ifs <;> rfl

def countedRecs (size : Int64) (sizeKey : Bytes) (incr : Int64) : List Rec :=
  if size + incr = 0 then [.delete sizeKey]
  else [.put sizeKey (Endian.memory (size + incr).toUInt64)]

def countRecs (db : LevelDB) (sizeKey : Bytes) (incr : Int64) : List Rec :=
  if db.readCount sizeKey + incr = 0 then [.delete sizeKey]
  else [.put sizeKey (Endian.memory (db.readCount sizeKey + incr).toUInt64)]

theorem commitOr_ends (ret : Int) (recs : List Rec) :
    Ends recs (commitOr ret) (.done (.commit recs ret (-1))) := Ends.commit ret (-1)

theorem commitOr_apply (ret : Int) (recs : List Rec) :
    commitOr ret (w.record recs) = (Plan.commit recs ret (-1)).body w := commitOr_ends ret recs w

def settlePlan (draft : Int × List Rec) (count : List Rec) : Plan Int :=
  if draft.1 < 0 then .abort draft.2 draft.1
  else .commit (if draft.1 = 0 then draft.2 else draft.2 ++ count) draft.1 (-1)

theorem settlePlan_opened (draft : Int × List Rec) (count : List Rec) :
    (settlePlan draft count).Opened := by
  rw [settlePlan]
  split_ifs <;> trivial

def settleAsk (draft : Int × List Rec) (sizeKey : Bytes) (incr : Int64) :
    Inquiry Bytes Fetched (Plan Int) :=
  if draft.1 > 0 then
    .ask sizeKey fun r => .done (settlePlan draft (countedRecs r.count sizeKey incr))
  else .done (settlePlan draft [])

theorem settle_ends (draft : Int × List Rec) (sizeKey : Bytes) (incr : Int64) :
    Ends draft.2 (settle draft.1 (incrCount sizeKey incr)) (settleAsk draft sizeKey incr) := by
  obtain ⟨ret, recs⟩ := draft
  rcases lt_trichotomy ret 0 with hneg | rfl | hpos
  · simp only [settle, settleAsk, settlePlan, if_pos hneg, ge_iff_le, not_le.mpr hneg, if_false,
      not_lt.mpr hneg.le]
    exact Ends.pure ret
  · simp only [settle, settleAsk, settlePlan, lt_irrefl, if_false, if_true, ge_iff_le, le_refl]
    exact commitOr_ends 0 recs
  · simp only [settle, settleAsk, settlePlan, ge_iff_le, hpos.le, gt_iff_lt, hpos, if_true,
      not_lt.mpr hpos.le, if_false, hpos.ne']
    have hincr : (do if (← incrCount sizeKey incr) = -1 then return -1 else commitOr ret : M Int) =
        getCount sizeKey >>= fun size =>
          if size + incr = 0 then Binlogs.Delete sizeKey >>= fun _ => commitOr ret
          else Binlogs.Put sizeKey (Endian.memory (size + incr).toUInt64) >>= fun _ =>
            commitOr ret := by
      funext w
      simp only [incrCount, M.bind_apply, M.ite_apply, M.pure_apply]
      split_ifs <;> first | contradiction | rfl
    rw [hincr]
    refine Ends.count fun r => ?_
    simp only [countedRecs]
    split_ifs with h0
    · exact Ends.delete (commitOr_ends ret _)
    · exact Ends.put (commitOr_ends ret _)

theorem settleAsk_opened (draft : Int × List Rec) (sizeKey : Bytes) (incr : Int64) :
    (settleAsk draft sizeKey incr).Every Plan.Opened := by
  rw [settleAsk]
  split_ifs
  · exact fun r => settlePlan_opened _ _
  · exact settlePlan_opened _ _

theorem settleAsk_answered (db : LevelDB) (draft : Int × List Rec) (sizeKey : Bytes)
    (incr : Int64) :
    (settleAsk draft sizeKey incr).answered db.fetch =
      settlePlan draft (countRecs db sizeKey incr) := by
  rcases lt_or_ge 0 draft.1 with hpos | hle
  · simp only [settleAsk, gt_iff_lt, if_pos hpos, Inquiry.answered, LevelDB.fetch_count]
    rfl
  · simp only [settleAsk, gt_iff_lt, if_neg (not_lt.mpr hle), Inquiry.answered, settlePlan]
    rcases hle.lt_or_eq with hneg | h0
    · simp only [if_pos hneg]
    · simp only [h0, lt_irrefl, if_false, if_true]

def kvRecs (key val : Bytes) (t : Byte) : List Rec :=
  [.put (encodeKvKey key) val, .log t BinlogCommand.KSET (encodeKvKey key)]

def kvDelRecs (key : Bytes) (t : Byte) : List Rec :=
  [.delete (encodeKvKey key), .log t BinlogCommand.KDEL (encodeKvKey key)]

theorem kvSet_ends (key val : Bytes) (t : Byte) (ret : Int) (recs : List Rec) :
    Ends recs (do
      Binlogs.Put (encodeKvKey key) val
      addLog t BinlogCommand.KSET (encodeKvKey key)
      commitOr ret) (.done (.commit (recs ++ kvRecs key val t) ret (-1))) := by
  refine Ends.put (Ends.log ?_)
  rw [List.append_assoc]
  exact commitOr_ends ret _

def setPlan (key val : Bytes) (t : Byte) : Plan Int :=
  if key = [] then .reject 0
  else if key.length > SSDB_KEY_LEN_MAX then .reject (-1)
  else .commit (kvRecs key val t) 1 (-1)

theorem set_plan (key val : Bytes) (t : Byte) : set key val t w = (setPlan key val t).run w := by
  simp only [set, setPlan]
  split_ifs
  · rfl
  · rfl
  · exact congrFun (Ends.transaction (kvSet_ends key val t 1 []) trivial) w

def delPlan (key : Bytes) (t : Byte) : Plan Int :=
  if key.length > SSDB_KEY_LEN_MAX then .reject (-1) else .commit (kvDelRecs key t) 1 (-1)

theorem del_plan (key : Bytes) (t : Byte) : del key t w = (delPlan key t).run w := by
  simp only [del, delPlan]
  split_ifs
  · rfl
  · have hends : Ends [] (do
        Binlogs.Delete (encodeKvKey key)
        addLog t BinlogCommand.KDEL (encodeKvKey key)
        commitOr 1) (.done (.commit (kvDelRecs key t) 1 (-1))) :=
      Ends.delete (Ends.log (by exact commitOr_ends 1 (kvDelRecs key t)))
    exact congrFun (Ends.transaction hends trivial) w

def setnxAsk (key val : Bytes) (t : Byte) : Inquiry Bytes Fetched (Plan Int) :=
  if key = [] then .done (.reject 0)
  else if key.length > SSDB_KEY_LEN_MAX then .done (.reject (-1))
  else .ask (encodeKvKey key) fun r =>
    if r.record.1 ≠ 0 then .done (.abort [] 0) else .done (.commit (kvRecs key val t) 1 (-1))

theorem setnx_play (key val : Bytes) (t : Byte) : setnx key val t = (setnxAsk key val t).play := by
  simp only [setnx, setnxAsk]
  split_ifs
  · rfl
  · rfl
  · refine Ends.transaction (Ends.record fun r => ?_) fun r => ?_
    · exact Ends.ite (fun _ => Ends.pure 0) fun _ => kvSet_ends key val t 1 []
    · dsimp only
      split_ifs <;> trivial

def setnxPlan (db : LevelDB) (key val : Bytes) (t : Byte) : Plan Int :=
  if key = [] then .reject 0
  else if key.length > SSDB_KEY_LEN_MAX then .reject (-1)
  else if (db.readRecord (encodeKvKey key)).1 ≠ 0 then .abort [] 0
  else .commit (kvRecs key val t) 1 (-1)

theorem setnx_plan (key val : Bytes) (t : Byte) (h : w.faults.get = []) :
    setnx key val t w = (setnxPlan w.ldb key val t).run w := by
  rw [setnx_play, Inquiry.play_answered _ h]
  congr 1
  simp only [setnxAsk, setnxPlan]
  split_ifs with h1 h2 h3 <;> simp_all [Inquiry.answered, LevelDB.fetch_record]

def getsetAsk (key newval : Bytes) (t : Byte) : Inquiry Bytes Fetched (Plan (Int × Option Bytes)) :=
  if key = [] then .done (.reject (0, none))
  else if key.length > SSDB_KEY_LEN_MAX then .done (.reject (-1, none))
  else .ask (encodeKvKey key) fun r => .done (.commit (kvRecs key newval t) r.record (-1, r.record.2))

theorem getset_play (key newval : Bytes) (t : Byte) :
    getset key newval t = (getsetAsk key newval t).play := by
  simp only [getset, getsetAsk]
  split_ifs
  · rfl
  · rfl
  · refine Ends.transaction (Ends.record fun r => ?_) fun r => trivial
    exact Ends.put (Ends.log (Ends.map (·, r.record.2) (commitOr_ends _ _)))

def getsetPlan (db : LevelDB) (key newval : Bytes) (t : Byte) : Plan (Int × Option Bytes) :=
  if key = [] then .reject (0, none)
  else if key.length > SSDB_KEY_LEN_MAX then .reject (-1, none)
  else
    let old := db.readRecord (encodeKvKey key)
    .commit (kvRecs key newval t) old (-1, old.2)

theorem getset_plan (key newval : Bytes) (t : Byte) (h : w.faults.get = []) :
    getset key newval t w = (getsetPlan w.ldb key newval t).run w := by
  rw [getset_play, Inquiry.play_answered _ h]
  congr 1
  simp only [getsetAsk, getsetPlan]
  split_ifs
  · rfl
  · rfl
  · simp only [Inquiry.answered, LevelDB.fetch_record]

def storePlan (key : Bytes) (newVal : Int64) (t : Byte) : Plan (Int × Option Int64) :=
  .commit (kvRecs key (Strings.str newVal) t) (1, some newVal) (-1, some newVal)

def incrAsk (key : Bytes) (amount : Int64) (t : Byte) :
    Inquiry Bytes Fetched (Plan (Int × Option Int64)) :=
  if key.length > SSDB_KEY_LEN_MAX then .done (.reject (-1, none))
  else .ask (encodeKvKey key) fun
    | .failed => .done (.abort [] (-1, none))
    | .notFound => .done (storePlan key amount t)
    | .found old =>
      let newVal := (Strings.strToInt64 old).1 + amount
      .done (if (Strings.strToInt64 old).2 then storePlan key newVal t
        else .abort [] (0, some newVal))

theorem kvStore_ends (key : Bytes) (newVal : Int64) (t : Byte) :
    Ends [] (do
      Binlogs.Put (encodeKvKey key) (Strings.str newVal)
      addLog t BinlogCommand.KSET (encodeKvKey key)
      return (← commitOr 1, some newVal)) (.done (storePlan key newVal t)) := by
  refine Ends.put (Ends.log ?_)
  exact Ends.map (·, some newVal) (commitOr_ends 1 (kvRecs key (Strings.str newVal) t))

theorem incr_play (key : Bytes) (amount : Int64) (t : Byte) :
    incr key amount t = (incrAsk key amount t).play := by
  simp only [incr, incrAsk]
  split_ifs
  · rfl
  · refine Ends.transaction (Ends.record fun r => ?_) fun r => ?_
    · cases r with
      | failed => exact Ends.pure (-1, none)
      | notFound => exact kvStore_ends key amount t
      | found old =>
        simp only [Fetched.record, Option.getD_some]
        rcases Bool.eq_false_or_eq_true (Strings.strToInt64 old).2 with hwhole | hwhole
        · simp only [hwhole]
          exact kvStore_ends key _ t
        · simp only [hwhole]
          exact Ends.pure _
    · cases r with
      | failed => trivial
      | notFound => trivial
      | found old =>
        simp only [Inquiry.Every]
        split_ifs <;> trivial

def incrPlan (db : LevelDB) (key : Bytes) (amount : Int64) (t : Byte) : Plan (Int × Option Int64) :=
  if key.length > SSDB_KEY_LEN_MAX then .reject (-1, none)
  else
    match db.table.get (encodeKvKey key) with
    | none => storePlan key amount t
    | some old =>
      let newVal := (Strings.strToInt64 old).1 + amount
      if (Strings.strToInt64 old).2 then storePlan key newVal t else .abort [] (0, some newVal)

theorem incr_plan (key : Bytes) (amount : Int64) (t : Byte) (h : w.faults.get = []) :
    incr key amount t w = (incrPlan w.ldb key amount t).run w := by
  rw [incr_play, Inquiry.play_answered _ h]
  congr 1
  simp only [incrAsk, incrPlan]
  split_ifs
  · rfl
  · simp only [Inquiry.answered, LevelDB.fetch]
    cases w.ldb.table.get (encodeKvKey key) <;> rfl

def setbitAsk (key : Bytes) (bitoffset : ℕ) (on : Int) (t : Byte) :
    Inquiry Bytes Fetched (Plan Int) :=
  if key = [] then .done (.reject 0)
  else if key.length > SSDB_KEY_LEN_MAX then .done (.reject (-1))
  else .ask (encodeKvKey key) fun r =>
    let val := padTo (bitoffset / 8) (r.record.2.getD [])
    if r.record.1 = -1 then .done (.abort [] (-1))
    else .done (.commit (kvRecs key (withBit val bitoffset on) t) (bitOf val bitoffset) (-1))

theorem setbit_play (key : Bytes) (bitoffset : ℕ) (on : Int) (t : Byte) :
    setbit key bitoffset on t = (setbitAsk key bitoffset on t).play := by
  simp only [setbit, setbitAsk]
  split_ifs
  · rfl
  · rfl
  · refine Ends.transaction (Ends.record fun r => ?_) fun r => ?_
    · exact Ends.ite (fun _ => Ends.pure (-1)) fun _ => kvSet_ends key _ t _ []
    · dsimp only
      split_ifs <;> trivial

def setbitPlan (db : LevelDB) (key : Bytes) (bitoffset : ℕ) (on : Int) (t : Byte) : Plan Int :=
  if key = [] then .reject 0
  else if key.length > SSDB_KEY_LEN_MAX then .reject (-1)
  else
    let val := padTo (bitoffset / 8) ((db.table.get (encodeKvKey key)).getD [])
    .commit (kvRecs key (withBit val bitoffset on) t) (bitOf val bitoffset) (-1)

theorem setbit_plan (key : Bytes) (bitoffset : ℕ) (on : Int) (t : Byte) (h : w.faults.get = []) :
    setbit key bitoffset on t w = (setbitPlan w.ldb key bitoffset on t).run w := by
  rw [setbit_play, Inquiry.play_answered _ h]
  congr 1
  simp only [setbitAsk, setbitPlan]
  split_ifs
  · rfl
  · rfl
  · have hread := w.ldb.fetch_record (encodeKvKey key)
    simp only [Inquiry.answered, hread, LevelDB.readRecord]
    cases hold : w.ldb.table.get (encodeKvKey key) <;> simp [Inquiry.answered]

def multiSetPlanFrom (count : Int) (t : Byte) (recs : List Rec) : List (Bytes × Bytes) → Plan Int
  | [] => .commit recs count (-1)
  | (key, val) :: kvs =>
    if key = [] ∨ key.length > SSDB_KEY_LEN_MAX then .abort recs 0
    else multiSetPlanFrom count t (recs ++ kvRecs key val t) kvs

def multiSetPlan (kvs : List (Bytes × Bytes)) (t : Byte) : Plan Int :=
  multiSetPlanFrom kvs.length t [] kvs

theorem multiSetPlanFrom_opened (count : Int) (t : Byte) (recs : List Rec)
    (kvs : List (Bytes × Bytes)) : (multiSetPlanFrom count t recs kvs).Opened := by
  induction kvs generalizing recs with
  | nil => trivial
  | cons e kvs ih =>
    rw [multiSetPlanFrom]
    split_ifs
    · trivial
    · exact ih _

theorem multiSetFrom_ends (count : Int) (t : Byte) (kvs : List (Bytes × Bytes)) (recs : List Rec) :
    Ends recs (multiSetFrom count t kvs) (.done (multiSetPlanFrom count t recs kvs)) := by
  induction kvs generalizing recs with
  | nil => exact commitOr_ends count recs
  | cons e kvs ih =>
    obtain ⟨key, val⟩ := e
    simp only [multiSetFrom, multiSetPlanFrom]
    split_ifs with h1 h2 h3 h4
    · exact Ends.pure 0
    · exact absurd (.inl h1) h2
    · exact Ends.pure 0
    · exact absurd (.inr h3) h4
    · rename_i hbad
      exact absurd hbad (not_or.mpr ⟨h1, h3⟩)
    · refine Ends.put (Ends.log ?_)
      rw [List.append_assoc]
      exact ih (recs ++ kvRecs key val t)

theorem multiSet_plan (kvs : List (Bytes × Bytes)) (t : Byte) :
    multiSet kvs t w = (multiSetPlan kvs t).run w :=
  congrFun (Ends.transaction (multiSetFrom_ends kvs.length t kvs [])
    (multiSetPlanFrom_opened _ _ _ _)) w

def multiDelPlan (keys : List Bytes) (t : Byte) : Plan Int :=
  .commit (keys.flatMap (kvDelRecs · t)) keys.length (-1)

theorem multiDelFrom_ends (count : Int) (t : Byte) (keys : List Bytes) (recs : List Rec) :
    Ends recs (multiDelFrom count t keys)
      (.done (.commit (recs ++ keys.flatMap (kvDelRecs · t)) count (-1))) := by
  induction keys generalizing recs with
  | nil =>
    simp only [List.flatMap_nil, List.append_nil]
    exact commitOr_ends count recs
  | cons key keys ih =>
    refine Ends.delete (Ends.log ?_)
    have hrest := ih (recs ++ kvDelRecs key t)
    rw [List.append_assoc] at hrest ⊢
    exact hrest

theorem multiDel_plan (keys : List Bytes) (t : Byte) :
    multiDel keys t w = (multiDelPlan keys t).run w :=
  congrFun (Ends.transaction (multiDelFrom_ends keys.length t keys []) trivial) w

end SSDBImpl
