import Ssdb.Theory.ScoredSet

namespace ScoredSet
open Keys SSDBImpl Strings
open HashTable (Admitted)

variable {w : SSDBImpl} {Z : ScoredSet} {n k : Bytes} {t : Byte}

def Short (n k : Bytes) : Prop := n.length ≤ SSDB_KEY_LEN_MAX ∧ k.length ≤ SSDB_KEY_LEN_MAX

instance (n k : Bytes) : Decidable (Short n k) := by
  unfold Short
  infer_instance

def set (Z : ScoredSet) (n k : Bytes) (s : Int64) : ScoredSet :=
  if Admitted n k then Z.assign n k (some s) else Z

def remove (Z : ScoredSet) (n k : Bytes) : ScoredSet := Z.assign n k none

def setReply (Z : ScoredSet) (n k : Bytes) : Int :=
  if n = [] ∨ k = [] then 0
  else if ¬Short n k then -1
  else if (Z n).get k = none then 1 else 0

def delReply (Z : ScoredSet) (n k : Bytes) : Int :=
  if ¬Short n k then -1 else if (Z n).get k = none then 0 else 1

structure Result (w : SSDBImpl) (Z : ScoredSet) (r : Int × SSDBImpl) (ret : Int)
    (Z' : ScoredSet) : Prop where
  reply : r.1 = ret
  index : Indexed r.2.ldb.data Z'
  sizes : (∀ m, (Z m).size + 1 < 2 ^ 63) → Sizes w.ldb.data Z → Sizes r.2.ldb.data Z'

theorem member_get (hI : Indexed w.ldb.data Z) (n k : Bytes) :
    w.ldb.table.get (encodeZsetKey n k) = ((Z n).get k).map str := by
  rw [← LevelDB.data_eq (zsetKey_data n k), hI.member]

theorem Sizes.assign {d d' : Bytes → Option Bytes} {x : Option Int64} (hS : Sizes d Z)
    (hn : d' (encodeZsizeKey n) = counter ((Z.assign n k x) n).size)
    (hother : ∀ m, m ≠ n → d' (encodeZsizeKey m) = d (encodeZsizeKey m)) :
    Sizes d' (Z.assign n k x) := by
  intro m
  rcases eq_or_ne m n with rfl | hm
  · exact hn
  · rw [hother m hm, hS m, assign_other hm]

theorem result_rejected (hI : Indexed w.ldb.data Z) (count : List Rec) :
    Result w Z ((settlePlan (-1, []) count).run w) (-1) Z := by
  obtain ⟨h1, h2⟩ := Counter.settles_abort (w := w) (-1, []) count (by decide)
  exact ⟨h1, h2 ▸ hI, fun _ hS => h2 ▸ hS⟩

theorem result_kept {recs count : List Rec} {x : Option Int64}
    (hok : w.faults.write.head? ≠ some true) (hd : ∀ r ∈ recs, r.OnData)
    (hI : Indexed w.ldb.data Z) (ha : Admitted n k)
    (has : Assigned w.ldb.data (recs.foldl Rec.effect w.ldb.data) n k x)
    (hsize : ((Z.assign n k x) n).size = (Z n).size) :
    Result w Z ((settlePlan (0, recs) count).run w) 0 (Z.assign n k x) := by
  have h1 : (settlePlan (0, recs) count).run w = (0, w.committed recs) :=
    Plan.run_commit w _ _ _ hok
  have h2 := w.committed_data hd
  rw [h1]
  refine ⟨rfl, h2 ▸ hI.assign ha has, fun _ hS => ?_⟩
  rw [h2]
  refine hS.assign ?_ fun m _ => has.sizeKey m
  rw [has.sizeKey, hS n, hsize]

theorem result_unchanged (hok : w.faults.write.head? ≠ some true) (hI : Indexed w.ldb.data Z)
    (count : List Rec) : Result w Z ((settlePlan (0, []) count).run w) 0 Z := by
  have h1 : (settlePlan (0, []) count).run w = (0, w.committed []) := Plan.run_commit w _ _ _ hok
  have h2 : (w.committed []).ldb.data = w.ldb.data := w.committed_data (by simp)
  rw [h1]
  exact ⟨rfl, h2 ▸ hI, fun _ hS => h2 ▸ hS⟩

theorem result_counted {recs : List Rec} {incr : Int64} {x : Option Int64}
    (hok : w.faults.write.head? ≠ some true) (hd : ∀ r ∈ recs, r.OnData)
    (hI : Indexed w.ldb.data Z) (ha : Admitted n k)
    (has : Assigned w.ldb.data (recs.foldl Rec.effect w.ldb.data) n k x)
    (hsize : ((Z.assign n k x) n).size ≤ (Z n).size + 1)
    (hincr : Int64.ofNat (Z n).size + incr = Int64.ofNat ((Z.assign n k x) n).size) :
    Result w Z ((settlePlan (1, recs) (countRecs w.ldb (encodeZsizeKey n) incr)).run w) 1
      (Z.assign n k x) := by
  have h1 : (settlePlan (1, recs) (countRecs w.ldb (encodeZsizeKey n) incr)).run w =
      (1, w.committed (recs ++ countRecs w.ldb (encodeZsizeKey n) incr)) :=
    Plan.run_commit w _ _ _ hok
  have hall : ∀ r ∈ recs ++ countRecs w.ldb (encodeZsizeKey n) incr, r.OnData := fun r hr =>
    (List.mem_append.mp hr).elim (hd r) (Counter.countRecs_onData (zsizeKey_data n) r)
  have h2 := w.committed_data hall
  rw [List.foldl_append] at h2
  rw [h1]
  refine ⟨rfl, ?_, fun hb hS => ?_⟩
  · obtain ⟨y, hy⟩ := Counter.countRecs_update w.ldb (encodeZsizeKey n) incr
      (recs.foldl Rec.effect w.ldb.data)
    rw [h2, hy]
    exact (hI.assign ha has).frame y
      (by simp [encodeZsizeKey, DataType.ZSIZE, DataType.ZSET, charByte])
      (by simp [encodeZsizeKey, DataType.ZSIZE, DataType.ZSCORE, charByte])
  · have hn := hb n
    have hget : w.ldb.table.get (encodeZsizeKey n) = counter (Z n).size := by
      rw [← LevelDB.data_eq (zsizeKey_data n), hS n]
    rw [h2, Counter.countRecs_effect _ (by omega) (by omega) hget hincr]
    refine hS.assign (Function.update_self _ _ _) fun m hm => ?_
    rw [Function.update_of_ne (fun he => hm (zsizeKey_injective he)), has.sizeKey]

theorem zsetOneDraft_empty (db : LevelDB) (score : Bytes) (h : n = [] ∨ k = []) :
    zsetOneDraft db n k score t = (0, []) := if_pos h

theorem zsetOneDraft_long (db : LevelDB) (score : Bytes) (h : ¬(n = [] ∨ k = []))
    (hlong : ¬Short n k) : zsetOneDraft db n k score t = (-1, []) := by
  rw [zsetOneDraft, if_neg h]
  split_ifs with h1 h2
  · rfl
  · rfl
  · exact absurd ⟨not_lt.mp h1, not_lt.mp h2⟩ hlong

theorem zsetOneDraft_short (db : LevelDB) (score : Bytes) (h : Admitted n k) :
    zsetOneDraft db n k score t =
      match db.table.get (encodeZsetKey n k) with
      | none => (1, zsetRecs n k (filterScore score) t)
      | some old =>
        (0, if old ≠ filterScore score then
            .delete (encodeZscoreKey n k old) :: zsetRecs n k (filterScore score) t
          else []) := by
  have h1 : ¬(n = [] ∨ k = []) := not_or.mpr ⟨h.1, h.2.1⟩
  have h2 : ¬n.length > SSDB_KEY_LEN_MAX := not_lt.mpr h.2.2.1
  have h3 : ¬k.length > SSDB_KEY_LEN_MAX := not_lt.mpr h.2.2.2
  cases hold : db.table.get (encodeZsetKey n k) with
  | none => simp only [zsetOneDraft, if_neg h1, if_neg h2, if_neg h3, hold]
  | some old => simp only [zsetOneDraft, if_neg h1, if_neg h2, if_neg h3, hold]

theorem zdelOneDraft_long (db : LevelDB) (h : ¬Short n k) :
    zdelOneDraft db n k t = (-1, []) := by
  rw [zdelOneDraft]
  split_ifs with h1 h2
  · rfl
  · rfl
  · exact absurd ⟨not_lt.mp h1, not_lt.mp h2⟩ h

theorem zdelOneDraft_short (db : LevelDB) (h : Short n k) :
    zdelOneDraft db n k t =
      match db.table.get (encodeZsetKey n k) with
      | none => (0, [])
      | some old => (1, zdelRecs n k old t) := by
  have h1 : ¬n.length > SSDB_KEY_LEN_MAX := not_lt.mpr h.1
  have h2 : ¬k.length > SSDB_KEY_LEN_MAX := not_lt.mpr h.2
  cases hold : db.table.get (encodeZsetKey n k) with
  | none => simp only [zdelOneDraft, if_neg h1, if_neg h2, hold]
  | some old => simp only [zdelOneDraft, if_neg h1, if_neg h2, hold]

theorem size_assign_some (Z : ScoredSet) (n k : Bytes) (s : Int64) :
    ((Z.assign n k (some s)) n).size = if (Z n).get k = none then (Z n).size + 1 else (Z n).size := by
  rw [assign, Function.update_self]
  exact (Z n).size_insert k s

theorem size_assign_none (Z : ScoredSet) (n k : Bytes) :
    ((Z.assign n k none) n).size = if (Z n).get k = none then (Z n).size else (Z n).size - 1 := by
  rw [assign, Function.update_self]
  exact (Z n).size_erase k

theorem size_pos {s : Int64} (h : (Z n).get k = some s) : (Z n).size ≠ 0 := by
  intro h0
  rw [OrdMap.get, List.length_eq_zero_iff.mp h0, OrdMap.find] at h
  exact absurd h (by simp)

theorem zset_result (score : Bytes) (hI : Indexed w.ldb.data Z) (hget : w.faults.get = [])
    (hok : w.faults.write.head? ≠ some true) :
    Result w Z (zset n k score t w) (Z.setReply n k) (Z.set n k (int64 score)) := by
  rw [zset_plan n k score t hget, zsetPlan, setReply, set]
  by_cases hnil : n = [] ∨ k = []
  · rw [zsetOneDraft_empty _ _ hnil, if_pos hnil, if_neg fun ha => hnil.elim ha.1 ha.2.1]
    exact result_unchanged hok hI _
  · rw [if_neg hnil]
    by_cases hshort : Short n k
    · have ha : Admitted n k := ⟨(not_or.mp hnil).1, (not_or.mp hnil).2, hshort.1, hshort.2⟩
      have hdraft := zsetOneDraft_short (t := t) w.ldb score ha
      have hsize := Z.size_assign_some n k (int64 score)
      have hfilter : filterScore score = str (int64 score) := rfl
      rw [member_get hI, hfilter] at hdraft
      rw [if_neg (not_not.mpr hshort), if_pos ha]
      cases hold : (Z n).get k with
      | none =>
        rw [hold, Option.map_none] at hdraft
        rw [hold, if_pos rfl] at hsize
        rw [hdraft, if_pos rfl]
        refine result_counted hok (zsetRecs_onData t n k _) hI ha ?_ hsize.le
          (hsize ▸ Counter.ofNat_succ _)
        exact assigned_put t ha _ (fun u => by rw [hI.score, hold, if_neg (by simp)])
          fun _ _ => rfl
      | some old =>
        rw [hold, Option.map_some] at hdraft
        simp only at hdraft
        rw [hold, if_neg (Option.some_ne_none old)] at hsize
        rw [hdraft, if_neg (Option.some_ne_none old)]
        by_cases hval : old = int64 score
        · rw [if_neg (not_not.mpr (str_inj.mpr hval))]
          exact result_kept hok (by simp) hI ha (assigned_self hI (hold.trans (by rw [hval]))) hsize
        · rw [if_pos (fun he => hval (str_injective he))]
          refine result_kept hok ?_ hI ha ?_ hsize
          · intro r hr
            rcases List.mem_cons.mp hr with rfl | hr
            · trivial
            · exact zsetRecs_onData t n k _ r hr
          · rw [List.foldl_cons]
            refine assigned_put t ha _ (fun u => ?_) fun key hkey => ?_
            · rw [Rec.effect, encodeZscoreKey, int64_str]
              exact dropped_score hI ha hold u
            · rw [Rec.effect, encodeZscoreKey, int64_str, Function.update_of_ne (hkey old)]
    · rw [zsetOneDraft_long _ _ hnil hshort, if_pos hshort, if_neg fun ha => hshort ha.2.2]
      exact result_rejected hI _

theorem zdel_result (hI : Indexed w.ldb.data Z) (hget : w.faults.get = [])
    (hok : w.faults.write.head? ≠ some true) :
    Result w Z (zdel n k t w) (Z.delReply n k) (Z.remove n k) := by
  rw [zdel_plan n k t hget, zdelPlan, delReply, remove]
  by_cases hshort : Short n k
  · have hdraft := zdelOneDraft_short (t := t) w.ldb hshort
    have hsize := Z.size_assign_none n k
    rw [member_get hI] at hdraft
    rw [if_neg (not_not.mpr hshort)]
    cases hold : (Z n).get k with
    | none =>
      rw [hold, Option.map_none] at hdraft
      rw [hdraft, if_pos rfl, assign_same hold]
      exact result_unchanged hok hI _
    | some old =>
      have ha := hI.admitted n k (by simp [hold])
      have hpos := size_pos hold
      rw [hold, Option.map_some] at hdraft
      rw [hold, if_neg (by simp)] at hsize
      rw [hdraft, if_neg (by simp)]
      exact result_counted hok (zdelRecs_onData t n k _) hI ha (assigned_remove t hI ha hold)
        (by omega) (hsize ▸ Counter.ofNat_pred hpos)
  · have hnone := hI.get_none fun ha => hshort ha.2.2
    rw [zdelOneDraft_long _ hshort, if_pos hshort, assign_same hnone]
    exact result_rejected hI _

theorem zset_faults (score : Bytes) (hw : w.faults = Faults.none) :
    (zset n k score t w).2.faults = Faults.none := by
  rw [zset_plan n k score t (by rw [hw]; rfl)]
  exact ((zsetPlan w.ldb n k score t).run_answered w hw).2

theorem zdel_faults (hw : w.faults = Faults.none) : (zdel n k t w).2.faults = Faults.none := by
  rw [zdel_plan n k t (by rw [hw]; rfl)]
  exact ((zdelPlan w.ldb n k t).run_answered w hw).2

structure Holds (w : SSDBImpl) (Z : ScoredSet) : Prop where
  index : Indexed w.ldb.data Z
  sizes : w.ldb.sequence ≤ kMaxSequenceNumber → Sizes w.ldb.data Z

theorem Indexed.bound (hI : Indexed w.ldb.data Z) (hseq : w.ldb.sequence ≤ kMaxSequenceNumber)
    (m : Bytes) : (Z m).size + 1 < 2 ^ 63 := by
  have h1 := size_le_table hI m
  have h2 := w.ldb.size_le
  rw [kMaxSequenceNumber] at hseq
  omega

theorem Holds.step (h : Holds w Z) {r : Int × SSDBImpl} {ret : Int} {Z' : ScoredSet}
    (hr : Result w Z r ret Z') (hmono : w.ldb.sequence ≤ r.2.ldb.sequence) : Holds r.2 Z' where
  index := hr.index
  sizes hseq := by
    have hseq' := hmono.trans hseq
    exact hr.sizes (h.index.bound hseq') (h.sizes hseq')

theorem Holds.same {w' : SSDBImpl} (h : Holds w Z) (hldb : w'.ldb = w.ldb) : Holds w' Z :=
  ⟨hldb ▸ h.index, fun hseq => by
    rw [hldb] at hseq ⊢
    exact h.sizes hseq⟩

theorem zset_holds (score : Bytes) (h : Holds w Z) (hw : w.faults = Faults.none) :
    Holds (zset n k score t w).2 (Z.set n k (int64 score)) := by
  have hget : w.faults.get = [] := by rw [hw]; rfl
  refine h.step (zset_result score h.index hget (by simp [hw, Faults.none])) ?_
  rw [zset_plan n k score t hget]
  exact Plan.run_sequence w _

theorem zdel_holds (h : Holds w Z) (hw : w.faults = Faults.none) :
    Holds (zdel n k t w).2 (Z.remove n k) := by
  have hget : w.faults.get = [] := by rw [hw]; rfl
  refine h.step (zdel_result h.index hget (by simp [hw, Faults.none])) ?_
  rw [zdel_plan n k t hget]
  exact Plan.run_sequence w _

theorem zincr_state (amount : Int64) (hget : w.faults.get = []) :
    ∃ v, (zincr n k amount t w).2 = (zset n k (str v) t w).2 := by
  rw [zincr_plan n k amount t hget, zincrPlan, Plan.run_map, ← zset_plan n k _ t hget]
  exact ⟨_, rfl⟩

end ScoredSet

namespace Call

def onZset : Call → Bool
  | zset _ _ _ _ | zdel _ _ _ | zincr _ _ _ _ => true
  | _ => false

end Call

namespace ScoredSet
open Keys SSDBImpl Strings

variable {w : SSDBImpl} {Z : ScoredSet}

theorem exec_holds {c : Call} (hc : c.onZset = true) (h : Holds w Z) :
    ∃ Z', Holds (c.exec .none w).2 Z' := by
  have h0 : Holds { w with faults := Faults.none } Z := h.same rfl
  cases c with
  | zset n k score t => exact ⟨_, (zset_holds score h0 rfl).same rfl⟩
  | zdel n k t => exact ⟨_, (zdel_holds h0 rfl).same rfl⟩
  | zincr n k amount t =>
    obtain ⟨v, hv⟩ := zincr_state (n := n) (k := k) (t := t)
      (w := { w with faults := Faults.none }) amount rfl
    have hldb := congrArg SSDBImpl.ldb hv
    exact ⟨_, (zset_holds (str v) h0 rfl).same hldb⟩
  | _ => exact absurd hc (by simp [Call.onZset])

theorem fresh_holds (enabled : Bool) (capacity : Int32) :
    Holds (SSDBImpl.fresh enabled capacity) (fun _ => OrdMap.empty) where
  index := indexed_empty
  sizes _ n := (LevelDB.data_eq (zsizeKey_data n)).trans rfl

theorem after_holds {cs : List Call} (hcs : ∀ c ∈ cs, c.onZset = true) (enabled : Bool)
    (capacity : Int32) : ∃ Z, Holds (Call.after cs (SSDBImpl.fresh enabled capacity)) Z :=
  Call.after_invariant (P := fun w => ∃ Z, Holds w Z) (fun _ _ hc ⟨_, h⟩ => exec_holds hc h) hcs
    ⟨_, fresh_holds enabled capacity⟩

theorem score_present (hI : Indexed w.ldb.data Z) (n k : Bytes) (s : Int64) :
    w.ldb.table.get (zscoreKey n k s) ≠ none ↔ (Z n).get k = some s := by
  rw [← LevelDB.data_eq (zscoreKey_data n k s), hI.score]
  split_ifs with h <;> simp [h]

theorem member_score (hI : Indexed w.ldb.data Z) (n k : Bytes) (s : Int64) :
    w.ldb.table.get (encodeZsetKey n k) = some (str s) ↔ (Z n).get k = some s := by
  rw [member_get hI, Option.map_eq_some_iff]
  constructor
  · rintro ⟨t, ht, hst⟩
    rw [ht, str_injective hst]
  · intro h
    exact ⟨s, h, rfl⟩

theorem zget_reply (hI : Indexed w.ldb.data Z) (hget : w.faults.get = []) (n k : Bytes) :
    (zget n k w).1 = match (Z n).get k with
      | none => (0, none)
      | some s => (1, some (str s)) := by
  have hread : (zget n k w).1 = w.ldb.readRecord (encodeZsetKey n k) := by
    rw [zget, getRecord_apply _ hget]
  have hrecord : w.ldb.table.get (encodeZsetKey n k) = ((Z n).get k).map str := member_get hI n k
  cases hk : (Z n).get k with
  | none => simp only [hread, LevelDB.readRecord, hrecord, hk, Option.map_none]
  | some s => simp only [hread, LevelDB.readRecord, hrecord, hk, Option.map_some]

theorem zget_one_iff (hI : Indexed w.ldb.data Z) (hget : w.faults.get = []) (n k : Bytes) :
    (zget n k w).1.1 = 1 ↔ (Z n).get k ≠ none := by
  rw [zget_reply hI hget]
  cases (Z n).get k <;> simp

theorem zsize_reply {n : Bytes} (hS : Sizes w.ldb.data Z) (hget : w.faults.get = [])
    (hb : (Z n).size < 2 ^ 63) : (zsize n w).1.toInt = (Z n).size := by
  have h : w.ldb.table.get (encodeZsizeKey n) = counter (Z n).size := by
    rw [← LevelDB.data_eq (zsizeKey_data n), hS n]
  rw [zsize, getCount_apply _ hget, Counter.readCount_counter hb h, Counter.ofNat_toInt hb]

/-- After any run of writes to sorted sets the member records and the score records are each
other's inverse, and the size record counts the members. -/
theorem index_consistent (enabled : Bool) (capacity : Int32) (cs : List Call)
    (hcs : ∀ c ∈ cs, c.onZset = true) (name : Bytes) :
    let w := Call.after cs (SSDBImpl.fresh enabled capacity)
    (∀ key s, w.ldb.table.get (encodeZsetKey name key) = some (str s) ↔
        ∀ t, w.ldb.table.get (zscoreKey name key t) ≠ none ↔ t = s) ∧
      (∀ key val, w.ldb.table.get (encodeZsetKey name key) = some val → ∃ s, val = str s) ∧
      (∀ key t u, w.ldb.table.get (zscoreKey name key t) ≠ none →
        w.ldb.table.get (zscoreKey name key u) ≠ none → t = u) ∧
      (∀ dbkey, dbkey.head? = some DataType.ZSCORE → w.ldb.table.get dbkey ≠ none →
        ∃ n k s, dbkey = zscoreKey n k s) ∧
      (w.ldb.sequence ≤ kMaxSequenceNumber →
        ∃ members : Finset Bytes, (∀ key, key ∈ members ↔ (zget name key w).1.1 = 1) ∧
          (zsize name w).1.toInt = members.card ∧
          (w.ldb.table.get (encodeZsizeKey name) = none ↔ members.card = 0)) := by
  intro w
  have hafter : ∃ Z, Holds w Z := after_holds hcs enabled capacity
  obtain ⟨Z, hZ⟩ := hafter
  have hget : w.faults.get = [] := congrArg Faults.get (Call.after_faults cs rfl)
  refine ⟨fun key s => ?_, fun key val hval => ?_, fun key t u ht hu => ?_, ?_, fun hseq => ?_⟩
  · simp only [member_score hZ.index, score_present hZ.index]
    constructor
    · intro h t
      rw [h, Option.some.injEq, eq_comm]
    · intro h
      exact (h s).mpr rfl
  · rw [member_get hZ.index, Option.map_eq_some_iff] at hval
    obtain ⟨s, -, hs⟩ := hval
    exact ⟨s, hs.symm⟩
  · rw [score_present hZ.index] at ht hu
    exact Option.some.inj (ht.symm.trans hu)
  · intro dbkey hhead hthere
    refine hZ.index.typed dbkey hhead ?_
    rwa [LevelDB.data_eq (by simp [hhead, DataType.ZSCORE, DataType.SYNCLOG, charByte])]
  · have hb := hZ.index.bound hseq name
    refine ⟨(Z name).keys.toFinset, fun key => ?_, ?_, ?_⟩
    · rw [List.mem_toFinset, OrdMap.mem_keys_iff, zget_one_iff hZ.index hget]
    · rw [← OrdMap.size_eq_card]
      exact zsize_reply (hZ.sizes hseq) hget (by omega)
    · rw [← OrdMap.size_eq_card, ← LevelDB.data_eq (zsizeKey_data name), hZ.sizes hseq name,
        counter]
      split_ifs with h0 <;> simp [h0]

theorem index_consistent_rescored :
    let w := Call.after [.zset [122] [97] [49] 1, .zset [122] [97] [50] 1]
      (SSDBImpl.fresh true 1000)
    ∀ key s, w.ldb.table.get (encodeZsetKey [122] key) = some (str s) ↔
      ∀ t, w.ldb.table.get (zscoreKey [122] key t) ≠ none ↔ t = s :=
  (index_consistent true 1000 [.zset [122] [97] [49] 1, .zset [122] [97] [50] 1] (by decide)
    [122]).1

end ScoredSet
