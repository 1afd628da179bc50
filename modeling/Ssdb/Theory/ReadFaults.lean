import Ssdb.Theory.Mixed

namespace SSDBImpl
open Keys Strings
open HashTable (Admitted)

def Refused (w : SSDBImpl) (p : Plan Reply) : Prop :=
  (p.run w).1.ret = -1 ∧ (p.run w).2.ldb = w.ldb

def Withstands (w : SSDBImpl) (T : Inquiry Bytes Fetched (Plan Reply)) (g : List Bool) : Prop :=
  T.Fails w.ldb.fetch .failed g → Refused w (T.resolve w.ldb.fetch .failed g).1

variable {w : SSDBImpl} {T : Inquiry Bytes Fetched (Plan Reply)} {g : List Bool}

theorem refused_abort (w : SSDBImpl) (recs : List Rec) {r : Reply} (h : r.ret = -1) :
    Refused w (.abort recs r) := ⟨h, rfl⟩

theorem run_reply (hw : w.faults.write = []) (p : Plan Reply) : (p.run w).1 = p.reply := by
  cases p with
  | reject r => rfl
  | abort recs r => rfl
  | commit recs ok fail => rw [Plan.run_commit w recs ok fail (by simp [hw]), Plan.reply]

theorem not_refused (hw : w.faults.write = []) {p : Plan Reply} (h : p.reply.ret ≠ -1) :
    ¬Refused w p := fun hp => h (run_reply hw p ▸ hp.1)

theorem not_refused_put (hw : w.faults.write = []) (key value : Bytes) (recs : List Rec)
    (ok fail : Reply) : ¬Refused w (.commit (.put key value :: recs) ok fail) := by
  rintro ⟨-, hsame⟩
  rw [Plan.run_commit w _ ok fail (by simp [hw])] at hsame
  have hgrows (recs : List Rec) (q : BinlogQueue) :
      q.batch.length ≤ (q.recordAll recs).batch.length := by
    induction recs generalizing q with
    | nil => exact le_rfl
    | cons r recs ih =>
      refine le_trans ?_ (ih (q.record r))
      cases r with
      | put key value => simp [BinlogQueue.record, BinlogQueue.Put]
      | delete key => simp [BinlogQueue.record, BinlogQueue.Delete]
      | log type cmd key =>
        simp only [BinlogQueue.record, BinlogQueue.addLog]
        split_ifs <;> simp
  have hlen := hgrows recs (w.binlogs.begin.record (.put key value))
  have hseq := congrArg LevelDB.sequence hsame
  have hone : (w.binlogs.begin.record (.put key value)).batch.length = 1 := rfl
  have hwritten : (w.committed (.put key value :: recs)).ldb.sequence =
      w.ldb.sequence + (w.drafted (.put key value :: recs)).batch.length := rfl
  have hdrafted : w.drafted (.put key value :: recs) =
      (w.binlogs.begin.record (.put key value)).recordAll recs := rfl
  rw [hwritten, hdrafted] at hseq
  omega

theorem withstands_guarded (h : T.Guarded .failed (Refused w)) (g : List Bool) :
    Withstands w T g := Inquiry.guarded_fails h

theorem withstands_iff (hw : w.faults.write = []) (hT : T.Every fun p => p.reply.ret ≠ -1) :
    Withstands w T g ↔ ¬T.Fails w.ldb.fetch .failed g :=
  ⟨fun h hg => not_refused hw (Inquiry.resolve_every hT g) (h hg), fun h hg => absurd hg h⟩

theorem settled_reply {T : Inquiry Bytes Fetched (Int × List Rec)} {sizeKey : Bytes}
    (incr : Int → Int64) (hT : T.Every fun draft => 0 ≤ draft.1) :
    (T.bind fun draft => settleAsk draft sizeKey (incr draft.1)).Every
      fun p => p.reply ≠ -1 := by
  have hplan {draft : Int × List Rec} (count : List Rec) (hd : 0 ≤ draft.1) :
      (settlePlan draft count).reply ≠ -1 := by
    rw [settlePlan, if_neg (not_lt.mpr hd)]
    change draft.1 ≠ -1
    omega
  refine Inquiry.every_bind hT fun draft hd => ?_
  exact Inquiry.every_ite (fun _ _ => hplan _ hd) fun _ => hplan _ hd

theorem settled_fails {key sizeKey : Bytes} {draft : Fetched → Int × List Rec} {incr : Int → Int64}
    {db : LevelDB} {moved : Prop} (hmoved : 0 < (draft (db.fetch key)).1 ↔ moved) (g : List Bool) :
    ((Inquiry.one key draft).bind fun draft => settleAsk draft sizeKey (incr draft.1)).Fails
        db.fetch .failed g ↔ g[0]? = some true ∨ moved ∧ g[1]? = some true := by
  have hzero : g[0]? = g.head? := List.head?_eq_getElem?.symm
  have hone : g[1]? = g.tail.head? := by cases g <;> simp [List.head?_eq_getElem?]
  rw [hzero, hone]
  simp only [Inquiry.one, Inquiry.bind, Inquiry.Fails]
  rcases eq_or_ne g.head? (some true) with hhead | hhead
  · simp [hhead]
  · have hreply : Inquiry.reply db.fetch .failed g key = db.fetch key := if_neg hhead
    rw [hreply, settleAsk]
    refine or_congr_right ?_
    rcases lt_or_ge 0 (draft (db.fetch key)).1 with hpos | hle
    · simp [hpos, hmoved.mp hpos, Inquiry.Fails]
    · have hnot : ¬moved := fun h => not_lt.mpr hle (hmoved.mpr h)
      simp [not_lt.mpr hle, hnot, Inquiry.Fails]

theorem map_map_reply {α β γ : Type} (f : α → β) (h : β → γ) (T : Inquiry Bytes Fetched (Plan α)) :
    (T.map (Plan.map f)).map (Plan.map h) = T.map (Plan.map fun a => h (f a)) := by
  induction T with
  | done p => cases p <;> rfl
  | ask key next ih =>
    simp only [Inquiry.map]
    congr 1
    funext r
    exact ih r

theorem settled_withstands (hw : w.faults.write = []) {key sizeKey : Bytes}
    {draft : Fetched → Int × List Rec} (incr : Int → Int64) (moved : Prop) {f : Int → Reply}
    (hdraft : ∀ r, 0 ≤ (draft r).1) (hmoved : 0 < (draft (w.ldb.fetch key)).1 ↔ moved)
    (hf : ∀ ret, ret ≠ -1 → (f ret).ret ≠ -1) (g : List Bool) :
    Withstands w (((Inquiry.one key draft).bind fun draft =>
        settleAsk draft sizeKey (incr draft.1)).map (Plan.map f)) g ↔
      g[0]? ≠ some true ∧ (moved → g[1]? ≠ some true) := by
  have hevery : ((((Inquiry.one key draft).bind fun draft =>
      settleAsk draft sizeKey (incr draft.1)).map (Plan.map f))).Every fun p => p.reply.ret ≠ -1 := by
    refine Inquiry.every_map ((settled_reply incr (T := Inquiry.one key draft) hdraft).imp ?_)
    intro p hp
    cases p with
    | reject r => exact hf r hp
    | abort recs r => exact hf r hp
    | commit recs ok fail => exact hf ok hp
  rw [withstands_iff hw hevery, Inquiry.fails_map, settled_fails hmoved, not_or, not_and]

theorem withstands_answered {key : Bytes} {next : Fetched → Inquiry Bytes Fetched (Plan Reply)}
    (h : g[0]? ≠ some true) :
    Withstands w (.ask key next) g ↔ Withstands w (next (w.ldb.fetch key)) g.tail := by
  have hhead : g.head? ≠ some true := by rwa [List.head?_eq_getElem?]
  have hreply : Inquiry.reply w.ldb.fetch .failed g key = w.ldb.fetch key := if_neg hhead
  simp only [Withstands, Inquiry.Fails, Inquiry.resolve, hreply, hhead, false_or]

theorem withstands_failed {key : Bytes} {next : Fetched → Inquiry Bytes Fetched (Plan Reply)}
    {p : Plan Reply} (h : g[0]? = some true) (hnext : next .failed = .done p) :
    Withstands w (.ask key next) g ↔ Refused w p := by
  have hhead : g.head? = some true := by rwa [List.head?_eq_getElem?]
  have hreply : Inquiry.reply w.ldb.fetch .failed g key = .failed := if_pos hhead
  simp only [Withstands, Inquiry.Fails, Inquiry.resolve, hreply, hhead, true_or, forall_const, hnext]

theorem withstands_done (p : Plan Reply) (g : List Bool) : Withstands w (.done p) g := False.elim

section drafts
variable {n k v : Bytes} {t : Byte}

theorem hsetOneAsk_one (ha : Admitted n k) : hsetOneAsk n k v t =
    .one (encodeHashKey n k) fun r => if r.record.1 = 0 then (1, hsetRecs n k v t)
      else (0, if r.record.2.getD [] ≠ v then hsetRecs n k v t else []) := by
  simp only [hsetOneAsk, if_neg (not_or.mpr ⟨ha.1, ha.2.1⟩), if_neg (not_lt.mpr ha.2.2.1),
    if_neg (not_lt.mpr ha.2.2.2), gt_iff_lt, Inquiry.one]
  congr 1
  funext r
  split_ifs <;> rfl

theorem hdelOneAsk_one (hn : n.length ≤ SSDB_KEY_LEN_MAX) (hk : k.length ≤ SSDB_KEY_LEN_MAX) :
    hdelOneAsk n k t = .one (encodeHashKey n k) fun r =>
      if r.record.1 = 0 then (0, []) else (1, hdelRecs n k t) := by
  simp only [hdelOneAsk, if_neg (not_lt.mpr hn), if_neg (not_lt.mpr hk), gt_iff_lt, Inquiry.one]
  congr 1
  funext r
  split_ifs <;> rfl

theorem zsetOneAsk_one (ha : Admitted n k) : zsetOneAsk n k v t =
    .one (encodeZsetKey n k) fun r =>
      if r.record.1 = 0 then (1, zsetRecs n k (filterScore v) t)
      else (0, if r.record.2.getD [] ≠ filterScore v then
          .delete (encodeZscoreKey n k (r.record.2.getD [])) :: zsetRecs n k (filterScore v) t
        else []) := by
  simp only [zsetOneAsk, if_neg (not_or.mpr ⟨ha.1, ha.2.1⟩), if_neg (not_lt.mpr ha.2.2.1),
    if_neg (not_lt.mpr ha.2.2.2), gt_iff_lt, Inquiry.one]
  congr 1
  funext r
  rcases eq_or_ne r.record.1 0 with h0 | h0
  · simp [h0]
  · simp only [h0, false_or, ne_eq, not_false_eq_true, if_true, if_false]
    split_ifs <;> rfl

theorem zdelOneAsk_one (hn : n.length ≤ SSDB_KEY_LEN_MAX) (hk : k.length ≤ SSDB_KEY_LEN_MAX) :
    zdelOneAsk n k t = .one (encodeZsetKey n k) fun r =>
      if r.record.1 ≠ 1 then (0, []) else (1, zdelRecs n k (r.record.2.getD []) t) := by
  simp only [zdelOneAsk, if_neg (not_lt.mpr hn), if_neg (not_lt.mpr hk), gt_iff_lt, Inquiry.one]
  congr 1
  funext r
  split_ifs <;> rfl

theorem fetch_absent_iff (db : LevelDB) (key : Bytes) :
    (db.fetch key).record.1 = 0 ↔ db.table.get key = none := by
  rw [LevelDB.fetch_record, LevelDB.readRecord]
  cases db.table.get key <;> simp

theorem fetch_present_iff (db : LevelDB) (key : Bytes) :
    (db.fetch key).record.1 = 1 ↔ db.table.get key ≠ none := by
  rw [LevelDB.fetch_record, LevelDB.readRecord]
  cases db.table.get key <;> simp

variable {f : Int → Reply} (hw : w.faults.write = []) (hf : ∀ ret, ret ≠ -1 → (f ret).ret ≠ -1)
include hw hf

theorem hset_withstands_iff (v : Bytes) (t : Byte) (g : List Bool) :
    Withstands w ((hsetAsk n k v t).map (Plan.map f)) g ↔ (Admitted n k →
      g[0]? ≠ some true ∧ (w.ldb.table.get (encodeHashKey n k) = none → g[1]? ≠ some true)) := by
  rcases em (Admitted n k) with ha | ha
  · rw [hsetAsk, hsetOneAsk_one ha, settled_withstands hw Int64.ofInt
      (w.ldb.table.get (encodeHashKey n k) = none) ?_ ?_ hf g]
    · simp only [ha, true_imp_iff]
    · intro r
      split_ifs <;> simp
    · rw [← fetch_absent_iff]
      split_ifs with h0 <;> simp [h0]
  · refine iff_of_true ?_ fun h => absurd h ha
    simp only [hsetAsk, hsetOneAsk]
    split_ifs with h1 h2 h3
    · exact False.elim
    · exact False.elim
    · exact False.elim
    · exact absurd ⟨(not_or.mp h1).1, (not_or.mp h1).2, not_lt.mp h2, not_lt.mp h3⟩ ha

theorem hdel_withstands_iff (t : Byte) (g : List Bool) :
    Withstands w ((hdelAsk n k t).map (Plan.map f)) g ↔
      (n.length ≤ SSDB_KEY_LEN_MAX ∧ k.length ≤ SSDB_KEY_LEN_MAX → g[0]? ≠ some true ∧
        (w.ldb.table.get (encodeHashKey n k) ≠ none → g[1]? ≠ some true)) := by
  rcases em (n.length ≤ SSDB_KEY_LEN_MAX ∧ k.length ≤ SSDB_KEY_LEN_MAX) with hlen | hlen
  · rw [hdelAsk, hdelOneAsk_one hlen.1 hlen.2, settled_withstands hw (fun ret => Int64.ofInt (-ret))
      (w.ldb.table.get (encodeHashKey n k) ≠ none) ?_ ?_ hf g]
    · simp only [hlen, and_self, true_imp_iff]
    · intro r
      split_ifs <;> simp
    · rw [ne_eq, ← fetch_absent_iff]
      split_ifs with h0 <;> simp [h0]
  · refine iff_of_true ?_ fun h => absurd h hlen
    simp only [hdelAsk, hdelOneAsk]
    split_ifs with h2 h3
    · exact False.elim
    · exact False.elim
    · exact absurd ⟨not_lt.mp h2, not_lt.mp h3⟩ hlen

theorem zset_withstands_iff (v : Bytes) (t : Byte) (g : List Bool) :
    Withstands w ((zsetAsk n k v t).map (Plan.map f)) g ↔ (Admitted n k →
      g[0]? ≠ some true ∧ (w.ldb.table.get (encodeZsetKey n k) = none → g[1]? ≠ some true)) := by
  rcases em (Admitted n k) with ha | ha
  · rw [zsetAsk, zsetOneAsk_one ha, settled_withstands hw Int64.ofInt
      (w.ldb.table.get (encodeZsetKey n k) = none) ?_ ?_ hf g]
    · simp only [ha, true_imp_iff]
    · intro r
      split_ifs <;> simp
    · rw [← fetch_absent_iff]
      split_ifs with h0 <;> simp [h0]
  · refine iff_of_true ?_ fun h => absurd h ha
    simp only [zsetAsk, zsetOneAsk]
    split_ifs with h1 h2 h3
    · exact False.elim
    · exact False.elim
    · exact False.elim
    · exact absurd ⟨(not_or.mp h1).1, (not_or.mp h1).2, not_lt.mp h2, not_lt.mp h3⟩ ha

theorem zdel_withstands_iff (t : Byte) (g : List Bool) :
    Withstands w ((zdelAsk n k t).map (Plan.map f)) g ↔
      (n.length ≤ SSDB_KEY_LEN_MAX ∧ k.length ≤ SSDB_KEY_LEN_MAX → g[0]? ≠ some true ∧
        (w.ldb.table.get (encodeZsetKey n k) ≠ none → g[1]? ≠ some true)) := by
  rcases em (n.length ≤ SSDB_KEY_LEN_MAX ∧ k.length ≤ SSDB_KEY_LEN_MAX) with hlen | hlen
  · rw [zdelAsk, zdelOneAsk_one hlen.1 hlen.2, settled_withstands hw (fun ret => Int64.ofInt (-ret))
      (w.ldb.table.get (encodeZsetKey n k) ≠ none) ?_ ?_ hf g]
    · simp only [hlen, and_self, true_imp_iff]
    · intro r
      split_ifs <;> simp
    · rw [← fetch_present_iff]
      split_ifs with h1 <;> simp_all
  · refine iff_of_true ?_ fun h => absurd h hlen
    simp only [zdelAsk, zdelOneAsk]
    split_ifs with h2 h3
    · exact False.elim
    · exact False.elim
    · exact absurd ⟨not_lt.mp h2, not_lt.mp h3⟩ hlen

end drafts

end SSDBImpl

namespace Call
open Keys SSDBImpl Strings
open HashTable (Admitted)

def reading : Call → Bool
  | setnx _ _ _ | getset _ _ _ | incr _ _ _ | setbit _ _ _ _ => true
  | hset _ _ _ _ | hdel _ _ _ | hincr _ _ _ _ => true
  | zset _ _ _ _ | zdel _ _ _ | zincr _ _ _ _ => true
  | qpushFront _ _ _ | qpushBack _ _ _ | qpopFront _ _ | qpopBack _ _ | qset _ _ _ _ => true
  | _ => false

def ReadSafe (g : List Bool) (db : LevelDB) : Call → Prop
  | setnx k _ _ | getset k _ _ => k ≠ [] ∧ k.length ≤ SSDB_KEY_LEN_MAX → g[0]? ≠ some true
  | hset n k _ _ => Admitted n k →
    g[0]? ≠ some true ∧ (db.table.get (encodeHashKey n k) = none → g[1]? ≠ some true)
  | hdel n k _ => n.length ≤ SSDB_KEY_LEN_MAX ∧ k.length ≤ SSDB_KEY_LEN_MAX →
    g[0]? ≠ some true ∧ (db.table.get (encodeHashKey n k) ≠ none → g[1]? ≠ some true)
  | hincr n k _ _ => g[0]? ≠ some true →
    (∀ old, db.table.get (encodeHashKey n k) = some old → (strToInt64 old).2 = true) → Admitted n k →
      g[1]? ≠ some true ∧ (db.table.get (encodeHashKey n k) = none → g[2]? ≠ some true)
  | zset n k _ _ => Admitted n k →
    g[0]? ≠ some true ∧ (db.table.get (encodeZsetKey n k) = none → g[1]? ≠ some true)
  | zdel n k _ => n.length ≤ SSDB_KEY_LEN_MAX ∧ k.length ≤ SSDB_KEY_LEN_MAX →
    g[0]? ≠ some true ∧ (db.table.get (encodeZsetKey n k) ≠ none → g[1]? ≠ some true)
  | zincr n k _ _ => g[0]? ≠ some true → Admitted n k →
    g[1]? ≠ some true ∧ (db.table.get (encodeZsetKey n k) = none → g[2]? ≠ some true)
  | _ => True

variable {w : SSDBImpl}

section guarded
variable (w : SSDBImpl) (n : Bytes) (t : Byte)

theorem incr_guarded (k : Bytes) (amount : Int64) :
    ((incrAsk k amount t).map (Plan.map Reply.ofNewVal)).Guarded .failed (Refused w) := by
  rw [incrAsk]
  split_ifs
  · trivial
  · refine ⟨refused_abort w [] rfl, fun r => ?_⟩
    cases r <;> trivial

theorem setbit_guarded (k : Bytes) (bitoffset : ℕ) (on : Int) :
    ((setbitAsk k bitoffset on t).map (Plan.map Reply.code)).Guarded .failed (Refused w) := by
  rw [setbitAsk]
  split_ifs
  · trivial
  · trivial
  · refine ⟨refused_abort w [] rfl, fun r => ?_⟩
    cases r <;> trivial

theorem qpush_guarded (item : Bytes) (endSeq : UInt64) :
    ((qpushAsk n item endSeq t).map (Plan.map (Reply.code ·.toInt))).Guarded .failed (Refused w) := by
  refine Inquiry.guarded_map ⟨refused_abort w [] (by decide), fun r => ?_⟩
  refine Inquiry.guarded_ite trivial (Inquiry.guarded_ite trivial (Inquiry.guarded_ite trivial
    (Inquiry.guarded_ite trivial ⟨refused_abort w _ (by decide), fun s => ?_⟩)))
  exact Inquiry.guarded_ite trivial trivial

theorem qpop_guarded (endSeq : UInt64) :
    ((qpopAsk n endSeq t).map (Plan.map Reply.ofOut)).Guarded .failed (Refused w) := by
  refine Inquiry.guarded_map ⟨refused_abort w [] rfl, fun r => ?_⟩
  refine Inquiry.guarded_ite trivial (Inquiry.guarded_ite trivial ⟨refused_abort w [] rfl, fun i => ?_⟩)
  refine Inquiry.guarded_ite trivial (Inquiry.guarded_ite trivial ⟨refused_abort w _ rfl, fun s => ?_⟩)
  exact Inquiry.guarded_ite trivial (Inquiry.guarded_ite (Inquiry.guarded_ite trivial trivial) trivial)

theorem qset_guarded (index : Int64) (item : Bytes) :
    ((qsetAsk n index item t).map (Plan.map Reply.code)).Guarded .failed (Refused w) := by
  refine Inquiry.guarded_map ⟨refused_abort w [] rfl, fun s => ?_⟩
  refine Inquiry.guarded_ite trivial (Inquiry.guarded_ite trivial ⟨refused_abort w [] rfl, fun r => ?_⟩)
  exact Inquiry.guarded_ite trivial (Inquiry.guarded_ite trivial trivial)

end guarded

section calls
variable (hw : w.faults.write = []) (g : List Bool) (k v : Bytes) (t : Byte)
include hw

theorem setnx_withstands_iff : Withstands w ((setnxAsk k v t).map (Plan.map Reply.code)) g ↔
    (k ≠ [] ∧ k.length ≤ SSDB_KEY_LEN_MAX → g[0]? ≠ some true) := by
  rw [setnxAsk]
  split_ifs with h1 h2
  · exact iff_of_true (withstands_done _ g) fun h => absurd h1 h.1
  · exact iff_of_true (withstands_done _ g) fun h => absurd h.2 (not_le.mpr h2)
  · simp only [h1, not_false_eq_true, ne_eq, not_lt.mp h2, and_self, true_imp_iff]
    rcases em (g[0]? = some true) with h0 | h0
    · refine iff_of_false ?_ (not_not.mpr h0)
      rw [Inquiry.map, withstands_failed (p := .abort [] (Reply.code 0)) h0 rfl]
      exact not_refused hw (by decide)
    · refine iff_of_true ?_ h0
      rw [Inquiry.map, withstands_answered h0]
      split_ifs <;> exact withstands_done _ _

theorem getset_withstands_iff : Withstands w ((getsetAsk k v t).map (Plan.map Reply.ofOut)) g ↔
    (k ≠ [] ∧ k.length ≤ SSDB_KEY_LEN_MAX → g[0]? ≠ some true) := by
  rw [getsetAsk]
  split_ifs with h1 h2
  · exact iff_of_true (withstands_done _ g) fun h => absurd h1 h.1
  · exact iff_of_true (withstands_done _ g) fun h => absurd h.2 (not_le.mpr h2)
  · simp only [h1, not_false_eq_true, ne_eq, not_lt.mp h2, and_self, true_imp_iff]
    rcases em (g[0]? = some true) with h0 | h0
    · refine iff_of_false ?_ (not_not.mpr h0)
      rw [Inquiry.map, withstands_failed h0 rfl]
      exact not_refused_put hw _ _ _ _ _
    · refine iff_of_true ?_ h0
      rw [Inquiry.map, withstands_answered h0]
      exact withstands_done _ _

omit hw in
theorem incrReply_ret (newVal : Int64) (ret : Int) (h : ret ≠ -1) :
    (Reply.ofNewVal (incrReply newVal ret)).ret ≠ -1 := by
  simp [Reply.ofNewVal, incrReply, h]

theorem hincr_withstands_iff (n : Bytes) (amount : Int64) :
    Withstands w ((hincrAsk n k amount t).map (Plan.map Reply.ofNewVal)) g ↔
      (g[0]? ≠ some true →
        (∀ old, w.ldb.table.get (encodeHashKey n k) = some old → (strToInt64 old).2 = true) →
        Admitted n k → g[1]? ≠ some true ∧
          (w.ldb.table.get (encodeHashKey n k) = none → g[2]? ≠ some true)) := by
  have hset (v : Bytes) (newVal : Int64) :=
    hset_withstands_iff (n := n) (k := k) hw (incrReply_ret newVal) v t g.tail
  rw [hincrAsk]
  rcases em (g[0]? = some true) with h0 | h0
  · refine iff_of_true ?_ fun h => absurd h0 h
    rw [Inquiry.map, withstands_failed (p := .abort [] (Reply.ofNewVal (-1, none))) h0 rfl]
    exact refused_abort w [] rfl
  · rw [Inquiry.map, withstands_answered h0, LevelDB.fetch]
    simp only [ne_eq, h0, not_false_eq_true, true_imp_iff]
    cases hold : w.ldb.table.get (encodeHashKey n k) with
    | none =>
      simp only [hold, map_map_reply, hset, List.getElem?_tail, Nat.zero_add, Nat.reduceAdd,
        reduceCtorEq, false_imp_iff, implies_true, true_imp_iff, ne_eq]
    | some old =>
      rcases eq_or_ne (strToInt64 old).2 true with hwhole | hwhole
      · simp only [hold, hwhole, if_true, map_map_reply, hset, List.getElem?_tail, Nat.zero_add,
          reduceCtorEq, false_imp_iff, and_true, Option.some.injEq, forall_eq', true_imp_iff, ne_eq]
      · simp only [hwhole, Bool.false_eq_true, if_false, Option.some.injEq, forall_eq', false_imp_iff,
          iff_true]
        exact withstands_done _ _

theorem zincr_withstands_iff (n : Bytes) (amount : Int64) :
    Withstands w ((zincrAsk n k amount t).map (Plan.map Reply.ofNewVal)) g ↔
      (g[0]? ≠ some true → Admitted n k → g[1]? ≠ some true ∧
        (w.ldb.table.get (encodeZsetKey n k) = none → g[2]? ≠ some true)) := by
  have hset (v : Bytes) (newVal : Int64) :=
    zset_withstands_iff (n := n) (k := k) hw (incrReply_ret newVal) v t g.tail
  rw [zincrAsk]
  rcases em (g[0]? = some true) with h0 | h0
  · refine iff_of_true ?_ fun h => absurd h0 h
    rw [Inquiry.map, withstands_failed (p := .abort [] (Reply.ofNewVal (-1, none))) h0 rfl]
    exact refused_abort w [] rfl
  · rw [Inquiry.map, withstands_answered h0, LevelDB.fetch]
    simp only [ne_eq, h0, not_false_eq_true, true_imp_iff]
    cases hold : w.ldb.table.get (encodeZsetKey n k) with
    | none => simp only [hold, map_map_reply, hset, List.getElem?_tail, Nat.zero_add, Nat.reduceAdd, ne_eq]
    | some old =>
      simp only [hold, map_map_reply, hset, List.getElem?_tail, Nat.zero_add, Nat.reduceAdd, ne_eq]

theorem withstands_iff_safe {c : Call} (hc : c.reading = true) :
    Withstands w (c.inquiry w.ldb) g ↔ c.ReadSafe g w.ldb := by
  have hcode (ret : Int) (h : ret ≠ -1) : (Reply.code ret).ret ≠ -1 := h
  have hguarded {T : Inquiry Bytes Fetched (Plan Reply)} (h : T.Guarded .failed (Refused w)) :
      Withstands w T g ↔ True := iff_true_intro (withstands_guarded h g)
  cases c with
  | setnx k v t => exact setnx_withstands_iff hw g k v t
  | getset k v t => exact getset_withstands_iff hw g k v t
  | incr k amount t => exact hguarded (incr_guarded w t k amount)
  | setbit k bitoffset on t => exact hguarded (setbit_guarded w t k bitoffset on)
  | hset n k v t => exact hset_withstands_iff hw hcode v t g
  | hdel n k t => exact hdel_withstands_iff hw hcode t g
  | hincr n k amount t => exact hincr_withstands_iff hw g k t n amount
  | zset n k v t => exact zset_withstands_iff hw hcode v t g
  | zdel n k t => exact zdel_withstands_iff hw hcode t g
  | zincr n k amount t => exact zincr_withstands_iff hw g k t n amount
  | qpushFront n item t | qpushBack n item t => exact hguarded (qpush_guarded w n t item _)
  | qpopFront n t | qpopBack n t => exact hguarded (qpop_guarded w n t _)
  | qset n index item t => exact hguarded (qset_guarded w n t index item)
  | _ => exact Bool.noConfusion hc

end calls

def readOutcomes (c : Call) (g : List Bool) (w : SSDBImpl) : List Bool :=
  g.take (g.length - (c.run { w with faults := ⟨g, []⟩ }).2.faults.get.length)

def Refuses (c : Call) (g : List Bool) (w : SSDBImpl) : Prop :=
  (c.exec ⟨g, []⟩ w).1.ret = -1 ∧ (c.exec ⟨g, []⟩ w).2.ldb = w.ldb

theorem reading_transactional {c : Call} (hc : c.reading = true) : c.transactional = true := by
  cases c <;> first | rfl | exact Bool.noConfusion hc

theorem reading_plain {c : Call} (hc : c.reading = true) : c.plain = true := by
  cases c <;> first | rfl | exact Bool.noConfusion hc

section run
variable {c : Call} (hc : c.reading = true) (g : List Bool) (w : SSDBImpl)
include hc

theorem run_resolved : c.run { w with faults := ⟨g, []⟩ } =
    ((c.inquiry w.ldb).resolve w.ldb.fetch .failed g).1.run
      { w with faults := ⟨((c.inquiry w.ldb).resolve w.ldb.fetch .failed g).2, []⟩ } := by
  rw [run_play (reading_transactional hc), Inquiry.play_apply]
  rfl

theorem read_fails_iff : true ∈ c.readOutcomes g w ↔
    (c.inquiry w.ldb).Fails w.ldb.fetch .failed g := by
  have hget {α : Type} (p : Plan α) (w : SSDBImpl) (h : w.faults.write = []) :
      (p.run w).2.faults.get = w.faults.get := by
    cases p with
    | reject r => rfl
    | abort recs r => rfl
    | commit recs ok fail =>
      rw [Plan.run_commit w recs ok fail (by simp [h]), committed_faults]
  rw [readOutcomes, run_resolved hc, hget _ _ rfl, Inquiry.fails_iff_mem_take]

theorem refuses_iff : c.Refuses g w ↔
    Refused { w with faults := ⟨((c.inquiry w.ldb).resolve w.ldb.fetch .failed g).2, []⟩ }
      ((c.inquiry w.ldb).resolve w.ldb.fetch .failed g).1 := by
  rw [Refuses, exec, run_resolved hc]
  rfl

theorem refuses_iff_safe : (true ∈ c.readOutcomes g w → c.Refuses g w) ↔ c.ReadSafe g w.ldb := by
  rw [read_fails_iff hc, refuses_iff hc]
  exact withstands_iff_safe (w := { w with
    faults := ⟨((c.inquiry w.ldb).resolve w.ldb.fetch .failed g).2, []⟩ }) rfl g hc

theorem exec_safe (h : c.ReadSafe g w.ldb) : (c.exec ⟨g, []⟩ w).2.ldb = w.ldb ∨
    (c.exec ⟨g, []⟩ w).2.ldb = (c.exec .none w).2.ldb := by
  rcases em (true ∈ c.readOutcomes g w) with hfail | hfail
  · exact .inl ((refuses_iff_safe hc g w).mpr h hfail).2
  · refine .inr ?_
    rw [read_fails_iff hc] at hfail
    have hgood : (c.exec ⟨g, []⟩ w).2.ldb = ((((c.inquiry w.ldb).answered w.ldb.fetch).run
        { w with faults := ⟨((c.inquiry w.ldb).resolve w.ldb.fetch .failed g).2, []⟩ }).2).ldb := by
      have hrun := run_resolved hc g w
      rw [Inquiry.resolve_answered hfail] at hrun
      exact congrArg (fun r => r.2.ldb) hrun
    have hnone : (c.exec .none w).2.ldb = (((c.inquiry w.ldb).answered w.ldb.fetch).run
        { w with faults := .none }).2.ldb := by
      have hplay := run_play (reading_transactional hc) { w with faults := .none }
      rw [Inquiry.play_answered _ rfl] at hplay
      exact congrArg (fun r => r.2.ldb) hplay
    rw [hgood, hnone]
    cases (c.inquiry w.ldb).answered w.ldb.fetch with
    | reject r => rfl
    | abort recs r => rfl
    | commit recs ok fail =>
      rw [Plan.run_commit _ recs ok fail (by simp), Plan.run_commit _ recs ok fail (by simp [Faults.none])]
      rfl

theorem exec_safe_whole (h : c.ReadSafe g w.ldb) (hw : Whole w) : Whole (c.exec ⟨g, []⟩ w).2 := by
  rcases exec_safe hc g w h with hldb | hldb
  · exact hw.same hldb
  · exact (exec_whole (reading_plain hc) (f := .none) rfl hw).same hldb

end run

def SafeRun : List (Call × List Bool) → SSDBImpl → Prop
  | [], _ => True
  | (c, g) :: cs, w =>
    c.reading = true ∧ c.ReadSafe g w.ldb ∧ SafeRun cs (c.exec ⟨g, []⟩ w).2

def underReads (cs : List (Call × List Bool)) : List (Call × Faults) :=
  cs.map fun e => (e.1, ⟨e.2, []⟩)

theorem safeRun_whole (cs : List (Call × List Bool)) {w : SSDBImpl} (h : SafeRun cs w)
    (hw : Whole w) : Whole (execAll (underReads cs) w).2 := by
  induction cs generalizing w with
  | nil => exact hw
  | cons e cs ih =>
    obtain ⟨hc, hsafe, hrest⟩ := h
    exact ih hrest (exec_safe_whole hc e.2 w hsafe hw)

/-- In every state a failed read makes a call answer `-1` and write nothing if and only if the
reads it needs are answered; sizes and indexes hold after every run that meets this. -/
theorem read_faults_reported_iff {c : Call} (hc : c.reading = true) (g : List Bool) (w : SSDBImpl) :
    ((true ∈ c.readOutcomes g w → c.Refuses g w) ↔ c.ReadSafe g w.ldb) ∧
      ∀ (enabled : Bool) (capacity : Int32) (cs : List (Call × List Bool)),
        SafeRun cs (SSDBImpl.fresh enabled capacity) →
          Whole (execAll (underReads cs) (SSDBImpl.fresh enabled capacity)).2 :=
  ⟨refuses_iff_safe hc g w,
    fun enabled capacity cs h => safeRun_whole cs h (whole_fresh enabled capacity)⟩

theorem read_faults_reported_iff_step :
    (true ∈ readOutcomes (.hincr [104] [97] 1 1) [true] (SSDBImpl.fresh true 1000) →
        Refuses (.hincr [104] [97] 1 1) [true] (SSDBImpl.fresh true 1000)) ∧
      Whole (execAll (underReads [(.hincr [104] [97] 1 1, [true])]) (SSDBImpl.fresh true 1000)).2 :=
  have hsafe : ReadSafe [true] (SSDBImpl.fresh true 1000).ldb (.hincr [104] [97] 1 1) :=
    fun h => absurd rfl h
  have hstep := read_faults_reported_iff (c := .hincr [104] [97] 1 1) rfl [true]
    (SSDBImpl.fresh true 1000)
  ⟨hstep.1.mpr hsafe, hstep.2 true 1000 [(.hincr [104] [97] 1 1, [true])] ⟨rfl, hsafe, trivial⟩⟩

theorem size_fault_unreported :
    let w := ((Call.hset [104] [97] [49] 1).exec .none (SSDBImpl.fresh true 1000)).2
    let c := Call.hset [104] [98] [50] 1
    let w' := (c.exec ⟨[false, true], []⟩ w).2
    true ∈ c.readOutcomes [false, true] w ∧ ¬c.Refuses [false, true] w ∧
      (c.exec ⟨[false, true], []⟩ w).1.ret = 1 ∧ (SSDBImpl.hsize [104] w').1 = 0 ∧
        (SSDBImpl.hget [104] [97] w').1.1 = 1 ∧ (SSDBImpl.hget [104] [98] w').1.1 = 1 := by
  refine ⟨by decide, fun h => ?_, by decide, by decide, by decide, by decide⟩
  exact absurd h.1 (by decide)

end Call
