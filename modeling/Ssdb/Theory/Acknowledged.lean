import Ssdb.Theory.ScoreIndex
import Ssdb.Theory.Shaped

namespace SSDBImpl
open Keys Strings
open HashTable (Admitted)

variable {w : SSDBImpl} {n k : Bytes}

theorem settled_read (hw : w.faults = Faults.none) {recs count : List Rec} {ret : Int} {key : Bytes}
    (hret : 0 ≤ ret) (hrecs : ∀ r ∈ recs, r.OnData) (hcount : ∀ r ∈ count, r.OnData)
    (hkey : key.head? ≠ some DataType.SYNCLOG)
    (hsize : ∀ d : Bytes → Option Bytes, count.foldl Rec.effect d key = d key) :
    ((settlePlan (ret, recs) count).run w).1 = ret ∧
      ((settlePlan (ret, recs) count).run w).2.ldb.table.get key =
        recs.foldl Rec.effect w.ldb.data key := by
  have hok : w.faults.write.head? ≠ some true := by simp [hw, Faults.none]
  have hrun : (settlePlan (ret, recs) count).run w =
      (ret, w.committed (if ret = 0 then recs else recs ++ count)) := by
    rw [settlePlan, if_neg (not_lt.mpr hret)]
    exact Plan.run_commit w _ ret (-1) hok
  rw [hrun, ← LevelDB.data_eq hkey]
  refine ⟨rfl, ?_⟩
  split_ifs with h0
  · rw [w.committed_data hrecs]
  · rw [w.committed_data fun r hr => (List.mem_append.mp hr).elim (hrecs r) (hcount r),
      List.foldl_append, hsize]

def inserted (w : SSDBImpl) (dbkey : Bytes) : Int := if w.ldb.table.get dbkey = none then 1 else 0

def itemDraft (db : LevelDB) (key val : Bytes) (drop : Bytes → List Rec) (recs : List Rec) :
    Int × List Rec :=
  match db.table.get key with
  | none => (1, recs)
  | some old => (0, if old ≠ val then drop old ++ recs else [])

theorem itemDraft_stored (hw : w.faults = Faults.none) {key sizeKey val : Bytes}
    {drop : Bytes → List Rec} {recs : List Rec} (incr : Int64)
    (hkey : key.head? ≠ some DataType.SYNCLOG) (hsizeKey : sizeKey.head? ≠ some DataType.SYNCLOG)
    (hne : key ≠ sizeKey) (hdrop : ∀ old, ∀ r ∈ drop old, r.OnData) (hrecs : ∀ r ∈ recs, r.OnData)
    (hput : ∀ d : Bytes → Option Bytes, recs.foldl Rec.effect d key = some val) :
    let p := settlePlan (itemDraft w.ldb key val drop recs) (countRecs w.ldb sizeKey incr)
    (p.run w).1 = w.inserted key ∧ (p.run w).2.ldb.table.get key = some val := by
  have hcount : ∀ r ∈ countRecs w.ldb sizeKey incr, r.OnData := Counter.countRecs_onData hsizeKey
  have hsize (d : Bytes → Option Bytes) :
      (countRecs w.ldb sizeKey incr).foldl Rec.effect d key = d key := by
    obtain ⟨v, hv⟩ := Counter.countRecs_update w.ldb sizeKey incr d
    rw [hv, Function.update_of_ne hne]
  rw [itemDraft, inserted]
  cases hold : w.ldb.table.get key with
  | none =>
    obtain ⟨hret, hread⟩ := settled_read hw (by decide : (0 : Int) ≤ 1) hrecs hcount hkey hsize
    exact ⟨hret, hread.trans (hput _)⟩
  | some old =>
    by_cases hsame : old = val
    · have hkept : w.ldb.data key = some val := by rw [LevelDB.data_eq hkey, hold, hsame]
      have hnil : ∀ r ∈ ([] : List Rec), r.OnData := by simp
      obtain ⟨hret, hread⟩ := settled_read hw le_rfl hnil hcount hkey hsize
      simp only [hsame, ne_eq, not_true, if_false, reduceCtorEq]
      exact ⟨hret, hread.trans hkept⟩
    · have hall : ∀ r ∈ drop old ++ recs, r.OnData := fun r hr =>
        (List.mem_append.mp hr).elim (hdrop old r) (hrecs r)
      obtain ⟨hret, hread⟩ := settled_read hw le_rfl hall hcount hkey hsize
      simp only [hsame, ne_eq, not_false_eq_true, if_true, if_false, reduceCtorEq]
      refine ⟨hret, hread.trans ?_⟩
      rw [List.foldl_append, hput]

theorem zset_stored (hw : w.faults = Faults.none) (ha : Admitted n k) (score : Bytes) (t : Byte) :
    (zset n k score t w).1 = w.inserted (encodeZsetKey n k) ∧
      (zset n k score t w).2.ldb.table.get (encodeZsetKey n k) = some (filterScore score) := by
  have hdraft : zsetOneDraft w.ldb n k score t = itemDraft w.ldb (encodeZsetKey n k)
      (filterScore score) (fun old => [.delete (encodeZscoreKey n k old)])
      (zsetRecs n k (filterScore score) t) := ScoredSet.zsetOneDraft_short _ _ ha
  rw [zset_plan n k score t (by rw [hw]; rfl), zsetPlan, hdraft]
  refine itemDraft_stored hw _ (ScoredSet.zsetKey_data n k) (ScoredSet.zsizeKey_data n)
    (ScoredSet.zsizeKey_ne_zsetKey n).symm (fun old r hr => ?_) (ScoredSet.zsetRecs_onData t n k _) ?_
  · rw [List.mem_singleton.mp hr]
    trivial
  · simp [zsetRecs, Rec.effect]

theorem hset_stored (hw : w.faults = Faults.none) (ha : Admitted n k) (val : Bytes) (t : Byte) :
    (hset n k val t w).1 = w.inserted (encodeHashKey n k) ∧
      (hset n k val t w).2.ldb.table.get (encodeHashKey n k) = some val := by
  have hdraft : hsetOneDraft w.ldb n k val t = itemDraft w.ldb (encodeHashKey n k) val
      (fun _ => []) (hsetRecs n k val t) := HashTable.hsetOneDraft_admitted _ _ _ _ _ ha
  rw [hset_plan n k val t (by rw [hw]; rfl), hsetPlan, hdraft]
  refine itemDraft_stored hw _ (by simp [encodeHashKey, DataType.HASH, DataType.SYNCLOG, charByte])
    (HashTable.hsizeKey_data n) (HashTable.hsizeKey_ne_hashKey n n k).symm
    (fun _ _ hr => absurd hr List.not_mem_nil) (HashTable.hsetRecs_onData n k val t) ?_
  simp [hsetRecs, Rec.effect]

variable {score : Bytes} {amount : Int64} {t : Byte}

theorem zset_unnamed (hw : w.faults = Faults.none) (score : Bytes) (t : Byte) (h : n = [] ∨ k = []) :
    (zset n k score t w).1 = 0 ∧ (zset n k score t w).2.ldb.table = w.ldb.table := by
  have hok : w.faults.write.head? ≠ some true := by simp [hw, Faults.none]
  have hrun : zset n k score t w = (0, w.committed []) := by
    rw [zset_plan n k score t (by rw [hw]; rfl), zsetPlan, ScoredSet.zsetOneDraft_empty _ _ h]
    exact Plan.run_commit w [] 0 (-1) hok
  rw [hrun]
  exact ⟨rfl, rfl⟩

theorem zset_long (hw : w.faults = Faults.none) (score : Bytes) (t : Byte) (h : ¬(n = [] ∨ k = []))
    (hlong : ¬ScoredSet.Short n k) :
    (zset n k score t w).1 = -1 ∧ (zset n k score t w).2.ldb = w.ldb := by
  have hrun : zset n k score t w = (-1, w.abandoned []) := by
    rw [zset_plan n k score t (by rw [hw]; rfl), zsetPlan, ScoredSet.zsetOneDraft_long _ _ h hlong]
    exact Plan.run_abort w [] (-1)
  rw [hrun]
  exact ⟨rfl, rfl⟩

def zincrSum (db : LevelDB) (name key : Bytes) (amount : Int64) : Int64 :=
  match db.table.get (encodeZsetKey name key) with
  | none => amount
  | some old => int64 old + amount

theorem zincr_zset (n k : Bytes) (amount : Int64) (t : Byte) (hw : w.faults = Faults.none) :
    zincr n k amount t w =
      (incrReply (zincrSum w.ldb n k amount)
          (zset n k (str (zincrSum w.ldb n k amount)) t w).1,
        (zset n k (str (zincrSum w.ldb n k amount)) t w).2) := by
  have hget : w.faults.get = [] := by rw [hw]; rfl
  rw [zincr_plan n k amount t hget, zincrPlan, Plan.run_map, zset_plan n k _ t hget]
  rfl

theorem zget_found {v : Bytes} {w' : SSDBImpl} (hw : w'.faults.get = [])
    (h : w'.ldb.table.get (encodeZsetKey n k) = some v) : (zget n k w').1 = (1, some v) := by
  rw [zget, getRecord_apply _ hw, LevelDB.readRecord, h]

theorem zget_absent {w' : SSDBImpl} (hw : w'.faults.get = [])
    (h : w'.ldb.table.get (encodeZsetKey n k) = none) : (zget n k w').1 = (0, none) := by
  rw [zget, getRecord_apply _ hw, LevelDB.readRecord, h]

theorem zset_faults (hw : w.faults = Faults.none) : (zset n k score t w).2.faults.get = [] := by
  have hget : w.faults.get = [] := by rw [hw]; rfl
  rw [zset_plan n k score t hget, ((zsetPlan w.ldb n k score t).run_answered w hw).2]
  rfl

structure ZsetAcknowledged (name key score : Bytes) (logType : Byte) (w : SSDBImpl) : Prop where
  inserted : (zset name key score logType w).1 = 1 → (zget name key w).1.1 = 0
  updated : (zset name key score logType w).1 = 0 → (zget name key w).1.1 = 1
  visible : (zset name key score logType w).1 = 1 ∨ (zset name key score logType w).1 = 0 →
    (zget name key (zset name key score logType w).2).1 = (1, some (str (int64 score)))
  refused : (zset name key score logType w).1 = -1 → (zset name key score logType w).2.ldb = w.ldb

structure ZincrAcknowledged (name key : Bytes) (amount : Int64) (logType : Byte) (w : SSDBImpl) :
    Prop where
  visible : (zincr name key amount logType w).1.1 = 1 →
    (zget name key (zincr name key amount logType w).2).1 =
      (1, (zincr name key amount logType w).1.2.map str)
  refused : (zincr name key amount logType w).1.1 = -1 →
    (zincr name key amount logType w).2.ldb = w.ldb

theorem zset_acknowledged (hw : w.faults = Faults.none) (hn : n ≠ []) (hk : k ≠ []) :
    ZsetAcknowledged n k score t w := by
  have hget : w.faults.get = [] := by rw [hw]; rfl
  by_cases hshort : ScoredSet.Short n k
  · obtain ⟨hret, hread⟩ := zset_stored hw ⟨hn, hk, hshort.1, hshort.2⟩ score t
    have hfound := zget_found (zset_faults hw) hread
    rw [inserted] at hret
    cases hold : w.ldb.table.get (encodeZsetKey n k) with
    | none =>
      rw [hold, if_pos rfl] at hret
      have hbefore := zget_absent hget hold
      constructor <;> simp [hret, hbefore, hfound, filterScore]
    | some old =>
      rw [hold, if_neg (by simp)] at hret
      have hbefore := zget_found hget hold
      constructor <;> simp [hret, hbefore, hfound, filterScore]
  · obtain ⟨hret, hldb⟩ := zset_long hw score t (not_or.mpr ⟨hn, hk⟩) hshort
    constructor <;> simp [hret, hldb]

theorem zincr_acknowledged (hw : w.faults = Faults.none) (hn : n ≠ []) (hk : k ≠ []) :
    ZincrAcknowledged n k amount t w := by
  have hset : ZsetAcknowledged n k (str (zincrSum w.ldb n k amount)) t w :=
    zset_acknowledged hw hn hk
  have hrun := zincr_zset n k amount t hw
  constructor
  · rw [hrun]
    simp only [incrReply]
    intro h
    have hnot : (zset n k (str (zincrSum w.ldb n k amount)) t w).1 ≠ -1 := fun he => by
      simp [he] at h
    have hcases : (zset n k (str (zincrSum w.ldb n k amount)) t w).1 = 1 ∨
        (zset n k (str (zincrSum w.ldb n k amount)) t w).1 = 0 := by
      by_cases hshort : ScoredSet.Short n k
      · rw [(zset_stored hw ⟨hn, hk, hshort.1, hshort.2⟩ _ t).1, inserted]
        split_ifs <;> simp
      · exact absurd (zset_long hw _ t (not_or.mpr ⟨hn, hk⟩) hshort).1 hnot
    have hread := hset.visible hcases
    rwa [int64_str] at hread
  · rw [hrun]
    simp only [incrReply]
    intro h
    refine hset.refused (by_contra fun hne => ?_)
    simp [hne] at h

/-- In every reachable store, without failing leveldb calls, what the replies of `zset` and `zincr`
tell is true exactly when name and key are not empty. -/
theorem acknowledged_iff (hw : Call.Reachable w) (name key score : Bytes) (amount : Int64)
    (logType : Byte) :
    (ZsetAcknowledged name key score logType w ↔ name ≠ [] ∧ key ≠ []) ∧
      (ZincrAcknowledged name key amount logType w ↔ name ≠ [] ∧ key ≠ []) := by
  have ht := Container.reachable_shaped hw
  have hfaults : w.faults = Faults.none := by
    obtain ⟨enabled, capacity, cs, rfl⟩ := hw
    exact Call.execAll_faults cs rfl
  have hget : w.faults.get = [] := by rw [hfaults]; rfl
  have habsent (h : name = [] ∨ key = []) : w.ldb.table.get (encodeZsetKey name key) = none := by
    by_contra hne
    obtain ⟨v, hv⟩ := Option.ne_none_iff_exists'.mp hne
    have ha := Container.shaped_zset ht hv
    exact h.elim ha.1 ha.2.1
  constructor
  · constructor
    · intro h
      refine not_or.mp fun hnil => ?_
      have hbefore := h.updated (zset_unnamed hfaults _ _ hnil).1
      rw [zget_absent hget (habsent hnil)] at hbefore
      exact absurd hbefore (by decide)
    · rintro ⟨hn, hk⟩
      exact zset_acknowledged hfaults hn hk
  · constructor
    · intro h
      refine not_or.mp fun hnil => ?_
      obtain ⟨hret, htable⟩ :=
        zset_unnamed hfaults (str (zincrSum w.ldb name key amount)) logType hnil
      have hafter := zget_absent (zset_faults hfaults) (htable ▸ habsent hnil)
      have hread := h.visible (by rw [zincr_zset _ _ _ _ hfaults, hret]; rfl)
      rw [zincr_zset _ _ _ _ hfaults, hafter] at hread
      have hzero : (0 : Int) = 1 := congrArg Prod.fst hread
      exact absurd hzero (by decide)
    · rintro ⟨hn, hk⟩
      exact zincr_acknowledged hfaults hn hk

theorem acknowledged_iff_named :
    ZsetAcknowledged [122] [97] [55] 1 (fresh true 1000) :=
  (acknowledged_iff ⟨true, 1000, [], rfl⟩ [122] [97] [55] 0 1).1.mpr (by decide)

theorem unnamed_acknowledged : (zset [] [97] [55] 1 (fresh true 1000)).1 = 0 ∧
    (zget [] [97] (fresh true 1000)).1 = (0, none) ∧
    (zget [] [97] (zset [] [97] [55] 1 (fresh true 1000)).2).1 = (0, none) := by
  decide

end SSDBImpl
