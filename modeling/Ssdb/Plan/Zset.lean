import Ssdb.Api.Zset
import Ssdb.Plan.Hash

namespace SSDBImpl
open Keys Binlogs Strings

variable {w : SSDBImpl}

def zsetRecs (name key score : Bytes) (t : Byte) : List Rec :=
  [.put (encodeZscoreKey name key score) [], .put (encodeZsetKey name key) score,
    .log t BinlogCommand.ZSET (encodeZsetKey name key)]

def zdelRecs (name key score : Bytes) (t : Byte) : List Rec :=
  [.delete (encodeZscoreKey name key score), .delete (encodeZsetKey name key),
    .log t BinlogCommand.ZDEL (encodeZsetKey name key)]

def zsetOneDraft (db : LevelDB) (name key score : Bytes) (t : Byte) : Int × List Rec :=
  if name = [] ∨ key = [] then (0, [])
  else if name.length > SSDB_KEY_LEN_MAX then (-1, [])
  else if key.length > SSDB_KEY_LEN_MAX then (-1, [])
  else
    match db.table.get (encodeZsetKey name key) with
    | none => (1, zsetRecs name key (filterScore score) t)
    | some old =>
      (0, if old ≠ filterScore score then
          .delete (encodeZscoreKey name key old) :: zsetRecs name key (filterScore score) t
        else [])

def zdelOneDraft (db : LevelDB) (name key : Bytes) (t : Byte) : Int × List Rec :=
  if name.length > SSDB_KEY_LEN_MAX then (-1, [])
  else if key.length > SSDB_KEY_LEN_MAX then (-1, [])
  else
    match db.table.get (encodeZsetKey name key) with
    | none => (0, [])
    | some old => (1, zdelRecs name key old t)

def zsetOneAsk (name key score : Bytes) (t : Byte) : Inquiry Bytes Fetched (Int × List Rec) :=
  if name = [] ∨ key = [] then .done (0, [])
  else if name.length > SSDB_KEY_LEN_MAX then .done (-1, [])
  else if key.length > SSDB_KEY_LEN_MAX then .done (-1, [])
  else .ask (encodeZsetKey name key) fun r =>
    let newScore := filterScore score
    let oldScore := r.record.2.getD []
    if r.record.1 = 0 ∨ oldScore ≠ newScore then
      if r.record.1 ≠ 0 then
        .done (0, .delete (encodeZscoreKey name key oldScore) :: zsetRecs name key newScore t)
      else .done (1, zsetRecs name key newScore t)
    else .done (0, [])

def zdelOneAsk (name key : Bytes) (t : Byte) : Inquiry Bytes Fetched (Int × List Rec) :=
  if name.length > SSDB_KEY_LEN_MAX then .done (-1, [])
  else if key.length > SSDB_KEY_LEN_MAX then .done (-1, [])
  else .ask (encodeZsetKey name key) fun r =>
    if r.record.1 ≠ 1 then .done (0, [])
    else .done (1, zdelRecs name key (r.record.2.getD []) t)

theorem zsetOne_drafts (name key score : Bytes) (t : Byte) :
    Drafts [] (zsetOne name key score t) (zsetOneAsk name key score t) := by
  have hput (ret : Int) (recs : List Rec) (newScore : Bytes) : Drafts recs (do
      Binlogs.Put (encodeZscoreKey name key newScore) []
      Binlogs.Put (encodeZsetKey name key) newScore
      addLog t BinlogCommand.ZSET (encodeZsetKey name key)
      return ret) (.done (ret, recs ++ zsetRecs name key newScore t)) := by
    refine Drafts.put (Drafts.put (Drafts.log ?_))
    rw [List.append_assoc, List.append_assoc]
    exact Drafts.pure ret
  refine Drafts.ite (fun _ => Drafts.pure _) fun _ => Drafts.ite (fun _ => Drafts.pure _) fun _ =>
    Drafts.ite (fun _ => Drafts.pure _) fun _ => Drafts.record fun r => ?_
  refine Drafts.ite (fun _ => ?_) fun _ => Drafts.pure 0
  cases r with
  | found old => exact Drafts.delete (hput 0 [.delete _] _)
  | notFound => exact hput 1 [] _
  | failed => exact Drafts.delete (hput 0 [.delete _] _)

theorem zdelOne_drafts (name key : Bytes) (t : Byte) :
    Drafts [] (zdelOne name key t) (zdelOneAsk name key t) := by
  refine Drafts.ite (fun _ => Drafts.pure _) fun _ => Drafts.ite (fun _ => Drafts.pure _) fun _ =>
    Drafts.record fun r => Drafts.ite (fun _ => Drafts.pure 0) fun _ =>
      Drafts.delete (Drafts.delete (Drafts.log ?_))
  exact Drafts.pure 1

theorem zsetOneAsk_answered (db : LevelDB) (name key score : Bytes) (t : Byte) :
    (zsetOneAsk name key score t).answered db.fetch = zsetOneDraft db name key score t := by
  simp only [zsetOneAsk, zsetOneDraft]
  split_ifs
  · rfl
  · rfl
  · rfl
  · simp only [Inquiry.answered, LevelDB.fetch_record, LevelDB.readRecord]
    cases db.table.get (encodeZsetKey name key) with
    | none => rfl
    | some old =>
      simp only [one_ne_zero, false_or, Option.getD_some]
      split_ifs <;> first | rfl | contradiction

theorem zdelOneAsk_answered (db : LevelDB) (name key : Bytes) (t : Byte) :
    (zdelOneAsk name key t).answered db.fetch = zdelOneDraft db name key t := by
  simp only [zdelOneAsk, zdelOneDraft]
  split_ifs
  · rfl
  · rfl
  · simp only [Inquiry.answered, LevelDB.fetch_record, LevelDB.readRecord]
    cases db.table.get (encodeZsetKey name key) <;> rfl

def zsetPlan (db : LevelDB) (name key score : Bytes) (t : Byte) : Plan Int :=
  let draft := zsetOneDraft db name key score t
  settlePlan draft (countRecs db (encodeZsizeKey name) (Int64.ofInt draft.1))

def zdelPlan (db : LevelDB) (name key : Bytes) (t : Byte) : Plan Int :=
  let draft := zdelOneDraft db name key t
  settlePlan draft (countRecs db (encodeZsizeKey name) (Int64.ofInt (-draft.1)))

def zsetAsk (name key score : Bytes) (t : Byte) : Inquiry Bytes Fetched (Plan Int) :=
  (zsetOneAsk name key score t).bind fun draft =>
    settleAsk draft (encodeZsizeKey name) (Int64.ofInt draft.1)

def zdelAsk (name key : Bytes) (t : Byte) : Inquiry Bytes Fetched (Plan Int) :=
  (zdelOneAsk name key t).bind fun draft =>
    settleAsk draft (encodeZsizeKey name) (Int64.ofInt (-draft.1))

theorem zset_play (name key score : Bytes) (t : Byte) :
    zset name key score t = (zsetAsk name key score t).play :=
  Ends.transaction (Ends.bind (zsetOne_drafts name key score t) fun draft => settle_ends draft _ _)
    (settled_opened _ _ _)

theorem zdel_play (name key : Bytes) (t : Byte) :
    zdel name key t = (zdelAsk name key t).play :=
  Ends.transaction (Ends.bind (zdelOne_drafts name key t) fun draft => settle_ends draft _ _)
    (settled_opened _ _ fun ret => Int64.ofInt (-ret))

theorem zsetAsk_answered (db : LevelDB) (name key score : Bytes) (t : Byte) :
    (zsetAsk name key score t).answered db.fetch = zsetPlan db name key score t := by
  rw [zsetAsk, Inquiry.answered_bind, settleAsk_answered, zsetOneAsk_answered]
  rfl

theorem zset_plan (name key score : Bytes) (t : Byte) (h : w.faults.get = []) :
    zset name key score t w = (zsetPlan w.ldb name key score t).run w := by
  rw [zset_play, Inquiry.play_answered _ h, zsetAsk_answered]

theorem zdel_plan (name key : Bytes) (t : Byte) (h : w.faults.get = []) :
    zdel name key t w = (zdelPlan w.ldb name key t).run w := by
  rw [zdel_play, Inquiry.play_answered _ h, zdelAsk, Inquiry.answered_bind, settleAsk_answered,
    zdelOneAsk_answered]
  rfl

def zincrPlan (db : LevelDB) (name key : Bytes) (amount : Int64) (t : Byte) :
    Plan (Int × Option Int64) :=
  let newVal :=
    match db.table.get (encodeZsetKey name key) with
    | none => amount
    | some old => int64 old + amount
  (zsetPlan db name key (str newVal) t).map (incrReply newVal)

def zincrAsk (name key : Bytes) (amount : Int64) (t : Byte) :
    Inquiry Bytes Fetched (Plan (Int × Option Int64)) :=
  .ask (encodeZsetKey name key) fun
    | .failed => .done (.abort [] (-1, none))
    | .notFound => (zsetAsk name key (str amount) t).map (Plan.map (incrReply amount))
    | .found old =>
      let newVal := int64 old + amount
      (zsetAsk name key (str newVal) t).map (Plan.map (incrReply newVal))

theorem zincr_store (name key : Bytes) (newVal : Int64) (t : Byte) :
    Ends [] (do
      let ret ← zsetOne name key (str newVal) t
      if ret = -1 then return (-1, some newVal)
      else
        let done ← settle ret (incrZsize name (Int64.ofInt ret))
        return (if done = -1 then -1 else 1, some newVal))
      ((zsetAsk name key (str newVal) t).map (Plan.map (incrReply newVal))) := by
  rw [zsetAsk, Inquiry.map_bind]
  exact Ends.bind (zsetOne_drafts name key _ t) fun draft => settleIncr_ends newVal draft _ _

theorem zincr_play (name key : Bytes) (amount : Int64) (t : Byte) :
    zincr name key amount t = (zincrAsk name key amount t).play := by
  refine Ends.transaction (Ends.record fun r => ?_) fun r => ?_
  · cases r with
    | failed => exact Ends.pure (-1, none)
    | notFound => exact zincr_store name key amount t
    | found old => exact zincr_store name key (int64 old + amount) t
  · cases r with
    | failed => trivial
    | notFound => exact settledMap_opened (settled_opened _ _ _)
    | found old => exact settledMap_opened (settled_opened _ _ _)

theorem zincr_plan (name key : Bytes) (amount : Int64) (t : Byte) (h : w.faults.get = []) :
    zincr name key amount t w = (zincrPlan w.ldb name key amount t).run w := by
  rw [zincr_play, Inquiry.play_answered _ h]
  congr 1
  simp only [zincrAsk, zincrPlan, Inquiry.answered, LevelDB.fetch]
  cases w.ldb.table.get (encodeZsetKey name key) with
  | none => simp only [Inquiry.answered_map, zsetAsk_answered]
  | some old => simp only [Inquiry.answered_map, zsetAsk_answered]

end SSDBImpl
