import Ssdb.Api.Hash
import Ssdb.Plan.Kv

namespace SSDBImpl
open Keys Binlogs

variable {w : SSDBImpl}

def hsetRecs (name key val : Bytes) (t : Byte) : List Rec :=
  [.put (encodeHashKey name key) val, .log t BinlogCommand.HSET (encodeHashKey name key)]

def hdelRecs (name key : Bytes) (t : Byte) : List Rec :=
  [.delete (encodeHashKey name key), .log t BinlogCommand.HDEL (encodeHashKey name key)]

def hsetOneDraft (db : LevelDB) (name key val : Bytes) (t : Byte) : Int × List Rec :=
  if name = [] ∨ key = [] then (-1, [])
  else if name.length > SSDB_KEY_LEN_MAX then (-1, [])
  else if key.length > SSDB_KEY_LEN_MAX then (-1, [])
  else
    match db.table.get (encodeHashKey name key) with
    | none => (1, hsetRecs name key val t)
    | some old => (0, if old ≠ val then hsetRecs name key val t else [])

def hdelOneDraft (db : LevelDB) (name key : Bytes) (t : Byte) : Int × List Rec :=
  if name.length > SSDB_KEY_LEN_MAX then (-1, [])
  else if key.length > SSDB_KEY_LEN_MAX then (-1, [])
  else
    match db.table.get (encodeHashKey name key) with
    | none => (0, [])
    | some _ => (1, hdelRecs name key t)

def hsetOneAsk (name key val : Bytes) (t : Byte) : Inquiry Bytes Fetched (Int × List Rec) :=
  if name = [] ∨ key = [] then .done (-1, [])
  else if name.length > SSDB_KEY_LEN_MAX then .done (-1, [])
  else if key.length > SSDB_KEY_LEN_MAX then .done (-1, [])
  else .ask (encodeHashKey name key) fun r =>
    if r.record.1 = 0 then .done (1, hsetRecs name key val t)
    else if r.record.2.getD [] ≠ val then .done (0, hsetRecs name key val t)
    else .done (0, [])

def hdelOneAsk (name key : Bytes) (t : Byte) : Inquiry Bytes Fetched (Int × List Rec) :=
  if name.length > SSDB_KEY_LEN_MAX then .done (-1, [])
  else if key.length > SSDB_KEY_LEN_MAX then .done (-1, [])
  else .ask (encodeHashKey name key) fun r =>
    if r.record.1 = 0 then .done (0, []) else .done (1, hdelRecs name key t)

theorem hsetOne_drafts (name key val : Bytes) (t : Byte) :
    Drafts [] (hsetOne name key val t) (hsetOneAsk name key val t) := by
  have hput (ret : Int) : Drafts [] (do
      Binlogs.Put (encodeHashKey name key) val
      addLog t BinlogCommand.HSET (encodeHashKey name key)
      return ret) (.done (ret, hsetRecs name key val t)) :=
    Drafts.put (Drafts.log (by exact Drafts.pure ret))
  refine Drafts.ite (fun _ => Drafts.pure _) fun _ => Drafts.ite (fun _ => Drafts.pure _) fun _ =>
    Drafts.ite (fun _ => Drafts.pure _) fun _ => Drafts.record fun r => ?_
  exact Drafts.ite (fun _ => hput 1) fun _ => Drafts.ite (fun _ => hput 0) fun _ => Drafts.pure 0

theorem hdelOne_drafts (name key : Bytes) (t : Byte) :
    Drafts [] (hdelOne name key t) (hdelOneAsk name key t) := by
  refine Drafts.ite (fun _ => Drafts.pure _) fun _ => Drafts.ite (fun _ => Drafts.pure _) fun _ =>
    Drafts.record fun r => Drafts.ite (fun _ => Drafts.pure 0) fun _ => Drafts.delete (Drafts.log ?_)
  exact Drafts.pure 1

theorem hsetOneAsk_answered (db : LevelDB) (name key val : Bytes) (t : Byte) :
    (hsetOneAsk name key val t).answered db.fetch = hsetOneDraft db name key val t := by
  simp only [hsetOneAsk, hsetOneDraft]
  split_ifs
  · rfl
  · rfl
  · rfl
  · simp only [Inquiry.answered, LevelDB.fetch_record, LevelDB.readRecord]
    cases db.table.get (encodeHashKey name key) with
    | none => rfl
    | some old =>
      simp only [one_ne_zero, if_false, Option.getD_some]
      split_ifs <;> rfl

theorem hdelOneAsk_answered (db : LevelDB) (name key : Bytes) (t : Byte) :
    (hdelOneAsk name key t).answered db.fetch = hdelOneDraft db name key t := by
  simp only [hdelOneAsk, hdelOneDraft]
  split_ifs
  · rfl
  · rfl
  · simp only [Inquiry.answered, LevelDB.fetch_record, LevelDB.readRecord]
    cases db.table.get (encodeHashKey name key) <;> rfl

def hsetPlan (db : LevelDB) (name key val : Bytes) (t : Byte) : Plan Int :=
  let draft := hsetOneDraft db name key val t
  settlePlan draft (countRecs db (encodeHsizeKey name) (Int64.ofInt draft.1))

def hdelPlan (db : LevelDB) (name key : Bytes) (t : Byte) : Plan Int :=
  let draft := hdelOneDraft db name key t
  settlePlan draft (countRecs db (encodeHsizeKey name) (Int64.ofInt (-draft.1)))

def hsetAsk (name key val : Bytes) (t : Byte) : Inquiry Bytes Fetched (Plan Int) :=
  (hsetOneAsk name key val t).bind fun draft =>
    settleAsk draft (encodeHsizeKey name) (Int64.ofInt draft.1)

def hdelAsk (name key : Bytes) (t : Byte) : Inquiry Bytes Fetched (Plan Int) :=
  (hdelOneAsk name key t).bind fun draft =>
    settleAsk draft (encodeHsizeKey name) (Int64.ofInt (-draft.1))

theorem settled_opened (T : Inquiry Bytes Fetched (Int × List Rec)) (sizeKey : Bytes)
    (incr : Int → Int64) :
    (T.bind fun draft => settleAsk draft sizeKey (incr draft.1)).Every Plan.Opened :=
  Inquiry.every_bind (Inquiry.every_of_forall (fun _ => trivial) T)
    fun draft _ => settleAsk_opened draft _ _

theorem hset_play (name key val : Bytes) (t : Byte) :
    hset name key val t = (hsetAsk name key val t).play :=
  Ends.transaction (Ends.bind (hsetOne_drafts name key val t) fun draft => settle_ends draft _ _)
    (settled_opened _ _ _)

theorem hdel_play (name key : Bytes) (t : Byte) :
    hdel name key t = (hdelAsk name key t).play :=
  Ends.transaction (Ends.bind (hdelOne_drafts name key t) fun draft => settle_ends draft _ _)
    (settled_opened _ _ fun ret => Int64.ofInt (-ret))

theorem hsetAsk_answered (db : LevelDB) (name key val : Bytes) (t : Byte) :
    (hsetAsk name key val t).answered db.fetch = hsetPlan db name key val t := by
  rw [hsetAsk, Inquiry.answered_bind, settleAsk_answered, hsetOneAsk_answered]
  rfl

theorem hset_plan (name key val : Bytes) (t : Byte) (h : w.faults.get = []) :
    hset name key val t w = (hsetPlan w.ldb name key val t).run w := by
  rw [hset_play, Inquiry.play_answered _ h, hsetAsk_answered]

theorem hdel_plan (name key : Bytes) (t : Byte) (h : w.faults.get = []) :
    hdel name key t w = (hdelPlan w.ldb name key t).run w := by
  rw [hdel_play, Inquiry.play_answered _ h, hdelAsk, Inquiry.answered_bind, settleAsk_answered,
    hdelOneAsk_answered]
  rfl

def incrReply (newVal : Int64) (ret : Int) : Int × Option Int64 :=
  (if ret = -1 then -1 else 1, some newVal)

def hincrPlan (db : LevelDB) (name key : Bytes) (amount : Int64) (t : Byte) :
    Plan (Int × Option Int64) :=
  match db.table.get (encodeHashKey name key) with
  | none => (hsetPlan db name key (Strings.str amount) t).map (incrReply amount)
  | some old =>
    let newVal := (Strings.strToInt64 old).1 + amount
    if (Strings.strToInt64 old).2 then
      (hsetPlan db name key (Strings.str newVal) t).map (incrReply newVal)
    else .abort [] (0, some newVal)

def hincrAsk (name key : Bytes) (amount : Int64) (t : Byte) :
    Inquiry Bytes Fetched (Plan (Int × Option Int64)) :=
  .ask (encodeHashKey name key) fun
    | .failed => .done (.abort [] (-1, none))
    | .notFound => (hsetAsk name key (Strings.str amount) t).map (Plan.map (incrReply amount))
    | .found old =>
      let newVal := (Strings.strToInt64 old).1 + amount
      if (Strings.strToInt64 old).2 then
        (hsetAsk name key (Strings.str newVal) t).map (Plan.map (incrReply newVal))
      else .done (.abort [] (0, some newVal))

theorem settleIncr_ends (newVal : Int64) (draft : Int × List Rec) (sizeKey : Bytes)
    (incr : Int64) :
    Ends draft.2 (if draft.1 = -1 then return (-1, some newVal)
      else do
        let done ← settle draft.1 (incrCount sizeKey incr)
        return (if done = -1 then -1 else 1, some newVal) : M (Int × Option Int64))
      ((settleAsk draft sizeKey incr).map (Plan.map (incrReply newVal))) := by
  obtain ⟨ret, recs⟩ := draft
  dsimp only
  split_ifs with hret
  · subst hret
    exact Ends.pure _
  · exact Ends.map (incrReply newVal) (settle_ends (ret, recs) sizeKey incr)

theorem map_opened {α β : Type} (f : α → β) {p : Plan α} (hp : p.Opened) : (p.map f).Opened := by
  cases p with
  | reject r => exact hp
  | abort recs r => trivial
  | commit recs ok fail => trivial

theorem settledMap_opened {α : Type} {f : Int → α} {T : Inquiry Bytes Fetched (Plan Int)}
    (hT : T.Every Plan.Opened) : (T.map (Plan.map f)).Every Plan.Opened :=
  Inquiry.every_map (hT.imp fun _ h => map_opened f h)

theorem hincr_store (name key : Bytes) (newVal : Int64) (t : Byte) :
    Ends [] (do
      let ret ← hsetOne name key (Strings.str newVal) t
      if ret = -1 then return (-1, some newVal)
      else
        let done ← settle ret (incrHsize name (Int64.ofInt ret))
        return (if done = -1 then -1 else 1, some newVal))
      ((hsetAsk name key (Strings.str newVal) t).map (Plan.map (incrReply newVal))) := by
  rw [hsetAsk, Inquiry.map_bind]
  exact Ends.bind (hsetOne_drafts name key _ t) fun draft => settleIncr_ends newVal draft _ _

theorem hincr_play (name key : Bytes) (amount : Int64) (t : Byte) :
    hincr name key amount t = (hincrAsk name key amount t).play := by
  refine Ends.transaction (Ends.record fun r => ?_) fun r => ?_
  · cases r with
    | failed => exact Ends.pure (-1, none)
    | notFound => exact hincr_store name key amount t
    | found old =>
      have hends := Ends.ite (c := (Strings.strToInt64 old).2 = true)
        (fun _ => hincr_store name key ((Strings.strToInt64 old).1 + amount) t)
        fun _ => Ends.pure (0, some ((Strings.strToInt64 old).1 + amount))
      exact hends
  · cases r with
    | failed => trivial
    | notFound => exact settledMap_opened (settled_opened _ _ _)
    | found old =>
      dsimp only
      split_ifs
      · exact settledMap_opened (settled_opened _ _ _)
      · trivial

theorem hincr_plan (name key : Bytes) (amount : Int64) (t : Byte) (h : w.faults.get = []) :
    hincr name key amount t w = (hincrPlan w.ldb name key amount t).run w := by
  rw [hincr_play, Inquiry.play_answered _ h]
  congr 1
  simp only [hincrAsk, hincrPlan, Inquiry.answered, LevelDB.fetch]
  cases w.ldb.table.get (encodeHashKey name key) with
  | none => simp only [Inquiry.answered_map, hsetAsk_answered]
  | some old =>
    dsimp only
    split_ifs
    · simp only [Inquiry.answered_map, hsetAsk_answered]
    · rfl

end SSDBImpl
