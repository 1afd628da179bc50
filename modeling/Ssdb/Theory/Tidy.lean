import Ssdb.Theory.Positions
import Ssdb.Theory.Repaired
import Ssdb.Theory.Replacing

theorem Call.exec_ldb {α : Type} {c : Call} {f : α → Reply} {x : M α} (hc : c.run = f <$> x)
    {w : SSDBImpl} (hw : w.faults = Faults.none) : (c.exec .none w).2.ldb = (x w).2.ldb := by
  have hsame : ({ w with faults := Faults.none } : SSDBImpl) = w := by rw [← hw]
  rw [Call.exec, hc, hsame]
  rfl

namespace ScoredSet
open Keys SSDBImpl Strings
open HashTable (Admitted)

variable {w : SSDBImpl} {Z : ScoredSet} {n k : Bytes} {t : Byte}

def AtMost (db : LevelDB) (Z : ScoredSet) : Prop :=
  ∀ n, (db.readCount (encodeZsizeKey n)).toInt ≤ (Z n).size

theorem readCount_recorded {db : LevelDB} {key : Bytes} {size : Int64}
    (h : db.table.get key = if size = 0 then none else some (Endian.memory size.toUInt64)) :
    db.readCount key = if size < 0 then 0 else size := by
  rcases eq_or_ne size 0 with rfl | h0
  · exact readCount_none h
  · rw [if_neg h0] at h
    rw [LevelDB.readCount, h]
    simp

theorem readCount_toInt (db : LevelDB) (key : Bytes) : 0 ≤ (db.readCount key).toInt := by
  have h := readCount_nonneg db key
  rwa [Int64.le_iff_toInt_le, Int64.toInt_zero] at h

def SparesSizes (recs : List Rec) : Prop :=
  (∀ r ∈ recs, r.OnData) ∧ ∀ d m, recs.foldl Rec.effect d (encodeZsizeKey m) = d (encodeZsizeKey m)

theorem settled_count (hok : w.faults.write.head? ≠ some true) {draft : Int × List Rec}
    (hd : SparesSizes draft.2) (incr : Int64) (m : Bytes) :
    let r := (settlePlan draft (countRecs w.ldb (encodeZsizeKey n) incr)).run w
    r.2.ldb.readCount (encodeZsizeKey m) =
      if m = n ∧ 0 < draft.1 then
        if w.ldb.readCount (encodeZsizeKey n) + incr < 0 then 0
        else w.ldb.readCount (encodeZsizeKey n) + incr
      else w.ldb.readCount (encodeZsizeKey m) := by
  intro r
  rcases lt_or_ge draft.1 0 with hneg | hpos
  · obtain ⟨-, hdata⟩ := Counter.settles_abort (w := w) draft
      (countRecs w.ldb (encodeZsizeKey n) incr) hneg
    rw [if_neg (by omega)]
    refine readCount_congr ?_
    rw [← LevelDB.data_eq (zsizeKey_data m), ← LevelDB.data_eq (zsizeKey_data m), hdata]
  · obtain ⟨-, hdata⟩ := Counter.settles_commit (w := w) draft
      (countRecs w.ldb (encodeZsizeKey n) incr) hok hpos hd.1
      (Counter.countRecs_onData (zsizeKey_data n))
    have hget : r.2.ldb.table.get (encodeZsizeKey m) = _ :=
      (LevelDB.data_eq (zsizeKey_data m)).symm.trans (congrFun hdata _)
    split_ifs at hget with h0
    · rw [if_neg (by omega)]
      refine readCount_congr ?_
      rw [hget, hd.2, LevelDB.data_eq (zsizeKey_data m)]
    · rw [List.foldl_append] at hget
      by_cases hm : m = n
      · subst hm
        rw [if_pos ⟨rfl, by omega⟩]
        refine readCount_recorded (hget.trans ?_)
        rw [countRecs]
        split_ifs <;> simp [Rec.effect]
      · rw [if_neg fun h => hm h.1]
        refine readCount_congr ?_
        obtain ⟨v, hv⟩ := Counter.countRecs_update w.ldb (encodeZsizeKey n) incr
          (draft.2.foldl Rec.effect w.ldb.data)
        rw [hget, hv, Function.update_of_ne (fun he => hm (zsizeKey_injective he)), hd.2,
          LevelDB.data_eq (zsizeKey_data m)]

theorem spares_nil : SparesSizes [] := ⟨by simp, fun _ _ => rfl⟩

theorem spares_zset (n k v : Bytes) (t : Byte) : SparesSizes (zsetRecs n k v t) := by
  refine ⟨zsetRecs_onData t n k v, fun d m => ?_⟩
  simp [zsetRecs, Rec.effect, encodeZscoreKey, zsizeKey_ne_zsetKey, zsizeKey_ne_zscoreKey]

theorem spares_zdel (n k v : Bytes) (t : Byte) : SparesSizes (zdelRecs n k v t) := by
  refine ⟨zdelRecs_onData t n k v, fun d m => ?_⟩
  simp [zdelRecs, Rec.effect, encodeZscoreKey, zsizeKey_ne_zsetKey, zsizeKey_ne_zscoreKey]

theorem spares_delete (n k v : Bytes) {recs : List Rec} (h : SparesSizes recs) :
    SparesSizes (.delete (encodeZscoreKey n k v) :: recs) := by
  refine ⟨fun r hr => ?_, fun d m => ?_⟩
  · rcases List.mem_cons.mp hr with rfl | hr
    · trivial
    · exact h.1 r hr
  · rw [List.foldl_cons, h.2]
    simp [Rec.effect, encodeZscoreKey, zsizeKey_ne_zscoreKey]

theorem spares_zsetOne (db : LevelDB) (n k score : Bytes) (t : Byte) :
    SparesSizes (zsetOneDraft db n k score t).2 := by
  rw [zsetOneDraft]
  split_ifs
  · exact spares_nil
  · exact spares_nil
  · exact spares_nil
  · cases db.table.get (encodeZsetKey n k) with
    | none => exact spares_zset n k _ t
    | some old =>
      dsimp only
      split_ifs
      · exact spares_delete n k old (spares_zset n k _ t)
      · exact spares_nil

theorem spares_zdelOne (db : LevelDB) (n k : Bytes) (t : Byte) :
    SparesSizes (zdelOneDraft db n k t).2 := by
  rw [zdelOneDraft]
  split_ifs
  · exact spares_nil
  · exact spares_nil
  · cases db.table.get (encodeZsetKey n k) with
    | none => exact spares_nil
    | some old => exact spares_zdel n k old t

theorem settled_ret (hok : w.faults.write.head? ≠ some true) (draft : Int × List Rec)
    (count : List Rec) : ((settlePlan draft count).run w).1 = draft.1 := by
  by_cases hneg : draft.1 < 0
  · rw [settlePlan, if_pos hneg]
    rfl
  · rw [settlePlan, if_neg hneg, Plan.run_commit _ _ _ _ hok]

theorem bumped_le {c incr : Int64} {b : ℕ} (hc : 0 ≤ c.toInt) (hincr : -1 ≤ incr.toInt)
    (hsum : c.toInt + incr.toInt ≤ b) (hb : b < 2 ^ 63) :
    (if c + incr < 0 then 0 else c + incr).toInt ≤ b := by
  have hadd : (c + incr).toInt = c.toInt + incr.toInt := by
    rw [Int64.toInt_add]
    exact Int.bmod_eq_of_le (by omega) (by omega)
  split_ifs
  · exact Int.natCast_nonneg b
  · rw [hadd]
    exact hsum

theorem setReply_cases (Z : ScoredSet) (n k : Bytes) : Z.setReply n k ≤ 0 ∨
    Z.setReply n k = 1 ∧ Admitted n k ∧ (Z n).get k = none := by
  rw [setReply]
  split_ifs with hnil hshort hnone
  · exact .inl le_rfl
  · exact .inr ⟨rfl, ⟨(not_or.mp hnil).1, (not_or.mp hnil).2, hshort.1, hshort.2⟩, hnone⟩
  · exact .inl le_rfl
  · exact .inl (by decide)

theorem delReply_cases {d : Bytes → Option Bytes} (hI : Indexed d Z) (n k : Bytes) :
    Z.delReply n k ≤ 0 ∧ (Z n).get k = none ∨ Z.delReply n k = 1 ∧ ∃ s, (Z n).get k = some s := by
  rw [delReply]
  split_ifs with hshort hnone
  · exact .inl ⟨le_rfl, hnone⟩
  · exact .inr ⟨rfl, Option.ne_none_iff_exists'.mp hnone⟩
  · exact .inl ⟨by decide, hI.get_none fun ha => hshort ha.2.2⟩

theorem settled_atMost (hok : w.faults.write.head? ≠ some true) {draft : Int × List Rec}
    (hd : SparesSizes draft.2) (incr : Int64) (hA : AtMost w.ldb Z) {x : Option Int64}
    (hb : ((Z.assign n k x) n).size < 2 ^ 63)
    (hsize : draft.1 ≤ 0 ∧ (Z n).size ≤ ((Z.assign n k x) n).size ∨
      0 < draft.1 ∧ -1 ≤ incr.toInt ∧ (Z n).size + incr.toInt ≤ ((Z.assign n k x) n).size) :
    AtMost ((settlePlan draft (countRecs w.ldb (encodeZsizeKey n) incr)).run w).2.ldb
      (Z.assign n k x) := by
  intro m
  have hold := hA m
  rw [settled_count hok hd]
  rcases eq_or_ne m n with rfl | hm
  · rcases hsize with ⟨hnone, hle⟩ | ⟨hpos, hincr, hle⟩
    · rw [if_neg fun h => absurd h.2 (not_lt.mpr hnone)]
      omega
    · rw [if_pos ⟨rfl, hpos⟩]
      exact bumped_le (readCount_toInt w.ldb _) hincr (by omega) hb
  · rw [if_neg fun h => hm h.1, assign_other hm]
    exact hold

variable (hI : Indexed w.ldb.data Z) (hw : w.faults = Faults.none)
  (hb : ∀ m, (Z m).size + 1 < 2 ^ 63) (hA : AtMost w.ldb Z)
include hI hw hb hA

theorem zset_atMost (score : Bytes) :
    AtMost (zset n k score t w).2.ldb (Z.set n k (int64 score)) := by
  have hok : w.faults.write.head? ≠ some true := by simp [hw, Faults.none]
  have hget : w.faults.get = [] := by rw [hw]; rfl
  have hdraft := (zset_result (n := n) (k := k) (t := t) score hI hget hok).reply
  have hnb := hb n
  rw [zset_plan n k score t hget, zsetPlan] at hdraft ⊢
  rw [settled_ret hok] at hdraft
  have hspares := spares_zsetOne w.ldb n k score t
  have hsize := Z.size_assign_some n k (int64 score)
  rcases Z.setReply_cases n k with hnone | ⟨hone, ha, habsent⟩
  · have hkept := settled_atMost (n := n) (k := k) hok hspares
      (Int64.ofInt (zsetOneDraft w.ldb n k score t).1) hA (x := (Z n).get k)
      (by rw [assign_same rfl]; omega)
      (.inl ⟨hdraft ▸ hnone, by rw [assign_same rfl]⟩)
    rw [assign_same rfl] at hkept
    intro m
    refine (hkept m).trans (Int.ofNat_le.mpr ?_)
    rw [set]
    split_ifs
    · rcases eq_or_ne m n with rfl | hm
      · rw [hsize]
        split_ifs <;> omega
      · rw [assign_other hm]
    · exact le_rfl
  · rw [if_pos habsent] at hsize
    rw [set, if_pos ha]
    rw [hone] at hdraft
    refine settled_atMost hok hspares _ hA (by omega) (.inr ?_)
    have htoInt : (Int64.ofInt 1).toInt = 1 := rfl
    rw [hdraft, hsize, htoInt]
    exact ⟨by decide, by decide, by push_cast; exact le_rfl⟩

theorem zdel_atMost : AtMost (zdel n k t w).2.ldb (Z.remove n k) := by
  have hok : w.faults.write.head? ≠ some true := by simp [hw, Faults.none]
  have hget : w.faults.get = [] := by rw [hw]; rfl
  have hdraft := (zdel_result (n := n) (k := k) (t := t) hI hget hok).reply
  have hnb := hb n
  rw [zdel_plan n k t hget, zdelPlan] at hdraft ⊢
  rw [settled_ret hok] at hdraft
  have hsize := Z.size_assign_none n k
  rw [remove]
  refine settled_atMost hok (spares_zdelOne w.ldb n k t) _ hA ?_ ?_
  · rw [hsize]
    split_ifs <;> omega
  · rcases delReply_cases hI n k with ⟨hnone, habsent⟩ | ⟨hone, s, hs⟩
    · rw [hsize, if_pos habsent]
      exact .inl ⟨hdraft ▸ hnone, le_rfl⟩
    · rw [hone] at hdraft
      have hsome := size_pos hs
      have htoInt : (Int64.ofInt (-1)).toInt = -1 := rfl
      rw [hdraft, hsize, if_neg (by simp [hs]), htoInt]
      exact .inr ⟨by decide, le_rfl, by omega⟩

omit hI hw hb hA

theorem read8Data_length {slice b p : Bytes} (h : Decoder.read8Data slice = some (b, p)) :
    b.length ≤ SSDB_KEY_LEN_MAX := by
  cases slice with
  | nil => simp [Decoder.read8Data] at h
  | cons c rest =>
    rw [Decoder.read8Data] at h
    split_ifs at h
    · obtain ⟨rfl, -⟩ := Prod.mk.inj (Option.some.inj h)
      have hc := c.isLt
      rw [List.length_take, SSDB_KEY_LEN_MAX]
      omega

theorem decoded_zscore {key k s : Bytes} (h : decodeZscoreKey key = some (n, k, s)) :
    n.length ≤ SSDB_KEY_LEN_MAX := by
  obtain ⟨p, -, h⟩ := Option.bind_eq_some_iff.mp h
  obtain ⟨⟨name, q⟩, hname, h⟩ := Option.bind_eq_some_iff.mp h
  obtain ⟨r, -, h⟩ := Option.bind_eq_some_iff.mp h
  obtain ⟨⟨score, r'⟩, -, h⟩ := Option.bind_eq_some_iff.mp h
  obtain ⟨u, -, h⟩ := Option.bind_eq_some_iff.mp h
  obtain ⟨rfl, -⟩ := Prod.mk.inj (Option.some.inj h)
  exact read8Data_length hname

theorem decoded_zset {key k : Bytes} (h : decodeZsetKey key = some (n, k)) :
    n.length ≤ SSDB_KEY_LEN_MAX := by
  obtain ⟨p, -, h⟩ := Option.bind_eq_some_iff.mp h
  obtain ⟨⟨name, q⟩, hname, h⟩ := Option.bind_eq_some_iff.mp h
  obtain ⟨⟨l, r⟩, -, h⟩ := Option.bind_eq_some_iff.mp h
  obtain ⟨rfl, -⟩ := Prod.mk.inj (Option.some.inj h)
  exact read8Data_length hname

theorem zfixScores_long (hn : SSDB_KEY_LEN_MAX < n.length) (es : List (Bytes × Bytes)) (w : SSDBImpl) :
    (zfixScores n es 0 w).2 = w ∧ ((zfixScores n es 0 w).1 = 0 ∨ (zfixScores n es 0 w).1 = -1) := by
  cases es with
  | nil => exact ⟨rfl, .inl rfl⟩
  | cons e es =>
    obtain ⟨key, v⟩ := e
    rw [zfixScores, M.ite_apply]
    split_ifs
    · exact ⟨rfl, .inl rfl⟩
    · cases hd : decodeZscoreKey key with
      | none => exact ⟨rfl, .inr rfl⟩
      | some p =>
        obtain ⟨m, k, s⟩ := p
        have hne : n ≠ m := fun he => not_lt.mpr (decoded_zscore (he ▸ hd)) hn
        simp only [M.ite_apply, if_pos hne]
        exact ⟨rfl, .inl rfl⟩

theorem zfixKeys_long (hn : SSDB_KEY_LEN_MAX < n.length) (es : List (Bytes × Bytes)) (w : SSDBImpl) :
    (zfixKeys n es 0 w).2 = w ∧ ((zfixKeys n es 0 w).1 = 0 ∨ (zfixKeys n es 0 w).1 = -1) := by
  cases es with
  | nil => exact ⟨rfl, .inl rfl⟩
  | cons e es =>
    obtain ⟨key, v⟩ := e
    rw [zfixKeys, M.ite_apply]
    split_ifs
    · exact ⟨rfl, .inl rfl⟩
    · cases hd : decodeZsetKey key with
      | none => exact ⟨rfl, .inr rfl⟩
      | some p =>
        obtain ⟨m, k⟩ := p
        have hne : n ≠ m := fun he => not_lt.mpr (decoded_zset (he ▸ hd)) hn
        simp only [M.ite_apply, if_pos hne]
        exact ⟨rfl, .inl rfl⟩

structure Recounted (n : Bytes) (b : ℕ) (w w' : SSDBImpl) : Prop where
  others : ∀ key, key ≠ encodeZsizeKey n → w'.ldb.table.get key = w.ldb.table.get key
  count : (w'.ldb.readCount (encodeZsizeKey n)).toInt ≤ b
  faults : w'.faults = Faults.none

variable {w' : SSDBImpl} {b : ℕ}

theorem Recounted.trans {w2 : SSDBImpl} (h : Recounted n b w w') (h' : Recounted n b w' w2) :
    Recounted n b w w2 where
  others key hkey := (h'.others key hkey).trans (h.others key hkey)
  count := h'.count
  faults := h'.faults

theorem zfixSize_none (hw : w.faults = Faults.none)
    (hb : (w.ldb.readCount (encodeZsizeKey n)).toInt ≤ b) {size : Int64}
    (h : size = 0 ∨ size = -1) : Recounted n b w (zfixSize n size w).2 := by
  rcases h with rfl | rfl
  · obtain ⟨-, hresized⟩ := zfixSize_run (n := n) hw (le_refl (0 : Int64))
    refine ⟨hresized.others, ?_, hresized.faults⟩
    rw [hresized.count]
    exact Int.natCast_nonneg b
  · exact ⟨fun _ _ => rfl, hb, hw⟩

theorem passes_long (hn : SSDB_KEY_LEN_MAX < n.length) (hw : w.faults = Faults.none)
    (hb : (w.ldb.readCount (encodeZsizeKey n)).toInt ≤ b) :
    Recounted n b w (firstPass n w).2 ∧ Recounted n b w (secondPass n w).2 := by
  constructor
  · rw [firstPass]
    generalize rawEntries _ = es
    obtain ⟨hsame, hsize⟩ := zfixScores_long hn es w
    generalize zfixScores n es 0 w = s at hsame hsize
    obtain ⟨size, w1⟩ := s
    obtain rfl : w1 = w := hsame
    exact zfixSize_none hw hb hsize
  · rw [secondPass]
    generalize rawEntries _ = es
    obtain ⟨hsame, hsize⟩ := zfixKeys_long hn es w
    generalize zfixKeys n es 0 w = s at hsame hsize
    obtain ⟨size, w1⟩ := s
    obtain rfl : w1 = w := hsame
    exact zfixSize_none hw hb hsize

theorem zfix_long (hn : SSDB_KEY_LEN_MAX < n.length) (hw : w.faults = Faults.none)
    (hb : (w.ldb.readCount (encodeZsizeKey n)).toInt ≤ b) : Recounted n b w (zfix n w).2 := by
  have hrun := zfix_passes n w
  generalize hw0 : ({ w with binlogs := w.binlogs.begin } : SSDBImpl) = w0 at hrun
  have hldb : w0.ldb = w.ldb := by rw [← hw0]
  have hfaults : w0.faults = Faults.none := by rw [← hw0]; exact hw
  obtain ⟨hfirst, -⟩ := passes_long hn hfaults (hldb ▸ hb)
  generalize firstPass n w0 = s at hrun hfirst
  have hboth : Recounted n b w0 (if s.1 = -1 then (-1, s.2) else secondPass n s.2).2 := by
    split_ifs
    · exact hfirst
    · exact hfirst.trans (passes_long hn hfirst.faults hfirst.count).2
  rw [hrun]
  exact ⟨fun key hkey => hldb ▸ hboth.others key hkey, hboth.count, hboth.faults⟩

theorem zfix_recounted (hI : Indexed w.ldb.data Z) (ht : Container.Shaped w.ldb.table)
    (hw : w.faults = Faults.none) (hseq : w.ldb.sequence ≤ kMaxSequenceNumber)
    (hA : AtMost w.ldb Z) (n : Bytes) : Recounted n (Z n).size w (zfix n w).2 := by
  have hmany : w.ldb.sequence < 2 ^ 60 := lt_of_le_of_lt hseq (by decide)
  rcases lt_or_ge SSDB_KEY_LEN_MAX n.length with hlong | hn
  · exact zfix_long hlong hw (hA n)
  · have hrecorded := hI.recorded ht hn
    have hm := matched_ranking (Z n)
    rcases lt_or_eq_of_le hn with hlen | hlen
    · have hrun := zfix_run hrecorded hw hlen hmany
      rw [if_neg (shaped_open ht n)] at hrun
      obtain ⟨l, -, hl, hp⟩ := hrun
      have hsize : l.length = (Z n).size := hp.length.trans (by rw [hm.merged])
      refine ⟨fun key hkey => hp.others hrecorded hm hkey, ?_, hp.faults⟩
      rw [hp.count, Counter.ofNat_toInt (by omega), hsize]
    · obtain ⟨w1, w2, hmembers, hfirst, -, -, hldb, hfaults⟩ := zfix_second hrecorded hw hlen.le hmany
      have h1 : w1.ldb.table = w.ldb.table := hmembers.table.trans (hm.members_kept hrecorded)
      obtain ⟨-, hsecond⟩ := zfixSize_run (n := n) hfirst.faults (le_refl (0 : Int64))
      rw [secondPass_longest hlen] at hldb hfaults
      generalize zfixSize n 0 w2 = s at hsecond hldb hfaults
      generalize (zfix n w).2 = w' at hldb hfaults ⊢
      refine ⟨fun key hkey => ?_, ?_, hfaults.trans hsecond.faults⟩
      · rw [hldb, hsecond.others key hkey, hfirst.others key hkey, h1]
      · rw [hldb, hsecond.count]
        exact Int.natCast_nonneg _

end ScoredSet

structure Tidy (w : SSDBImpl) : Prop where
  faults : w.faults = Faults.none
  numbers : SSDBImpl.Numbers w
  orderly : Queues.Orderly w
  hashes : ∃ H, HashTable.Holds True w H
  zsets : w.ldb.sequence ≤ kMaxSequenceNumber →
    ∃ Z, ScoredSet.Indexed w.ldb.data Z ∧ ScoredSet.AtMost w.ldb Z

namespace ScoredSet
open Keys SSDBImpl Strings

variable {w : SSDBImpl} {Z : ScoredSet} {c : Call}

theorem exec_atMost (hc : c.onZset = true) (hw : w.faults = Faults.none)
    (hseq : w.ldb.sequence ≤ kMaxSequenceNumber) (hI : Indexed w.ldb.data Z) (hA : AtMost w.ldb Z) :
    ∃ Z', Indexed (c.exec .none w).2.ldb.data Z' ∧ AtMost (c.exec .none w).2.ldb Z' := by
  have hget : w.faults.get = [] := by rw [hw]; rfl
  have hok : w.faults.write.head? ≠ some true := by simp [hw, Faults.none]
  have hb := hI.bound hseq
  cases c with
  | zset n k score t =>
    rw [Call.exec_ldb (x := zset n k score t) rfl hw]
    exact ⟨_, (zset_result score hI hget hok).index, zset_atMost hI hw hb hA score⟩
  | zdel n k t =>
    rw [Call.exec_ldb (x := zdel n k t) rfl hw]
    exact ⟨_, (zdel_result hI hget hok).index, zdel_atMost hI hw hb hA⟩
  | zincr n k amount t =>
    obtain ⟨v, hv⟩ := zincr_state (n := n) (k := k) (t := t) amount hget
    rw [Call.exec_ldb (x := zincr n k amount t) rfl hw, hv]
    exact ⟨_, (zset_result (str v) hI hget hok).index, zset_atMost hI hw hb hA (str v)⟩
  | _ => exact absurd hc (by simp [Call.onZset])

end ScoredSet

namespace Tidy
open Keys SSDBImpl
open Queues (StaysInside)

variable {w : SSDBImpl} {c : Call}

theorem fresh (enabled : Bool) (capacity : Int32) : Tidy (SSDBImpl.fresh enabled capacity) where
  faults := rfl
  numbers := ⟨le_rfl, le_rfl⟩
  orderly := ⟨⟨_, Queues.stores_empty⟩, Container.formed_fresh enabled capacity⟩
  hashes := ⟨_, HashTable.fresh_holds enabled capacity⟩
  zsets _ := by
    refine ⟨_, ScoredSet.indexed_empty, fun n => ?_⟩
    exact Int.natCast_nonneg 0

theorem emptied (h : w.ldb.table.entries = []) : (∃ Q, Queues.Stores w.ldb.data Q) ∧
    (∃ H, HashTable.Holds True w H) ∧
      ∃ Z, ScoredSet.Indexed w.ldb.data Z ∧ ScoredSet.AtMost w.ldb Z := by
  have hnone (key : Bytes) : w.ldb.table.get key = none := by rw [OrdMap.get, h, OrdMap.find]
  have htable : w.ldb.table = LevelDB.empty.table := OrdMap.ext_get fun key => hnone key
  have hdata : w.ldb.data = LevelDB.empty.data := congrArg dataOf htable
  refine ⟨⟨_, hdata ▸ Queues.stores_empty⟩, ⟨fun _ => OrdMap.empty, ?_, fun _ _ n => ?_⟩,
    ⟨_, hdata ▸ ScoredSet.indexed_empty, fun n => ?_⟩⟩
  · rw [hdata]
    exact HashTable.fields_empty
  · rw [LevelDB.data_eq (HashTable.hsizeKey_data n), hnone]
    rfl
  · rw [ScoredSet.readCount_none (hnone _)]
    exact Int.natCast_nonneg 0

theorem zset_heads (hflush : c ≠ .flushdb) (hfix : ∀ n, c ≠ .zfix n) : c.onZset = true ∨
    DataType.ZSET ∉ c.heads ∧ DataType.ZSCORE ∉ c.heads ∧ DataType.ZSIZE ∉ c.heads := by
  have hqueue : DataType.ZSET ∉ (Container.queue []).heads ∧
      DataType.ZSCORE ∉ (Container.queue []).heads ∧ DataType.ZSIZE ∉ (Container.queue []).heads := by
    decide
  cases hp : c.plain with
  | true => exact (Call.zset_heads hp).imp_left And.left
  | false =>
    rw [Call.plain.eq_def] at hp
    split at hp
    · exact .inr hqueue
    · exact .inr hqueue
    · exact absurd rfl (hfix _)
    · exact absurd rfl hflush
    · exact Bool.noConfusion hp

theorem numbered_other (hflush : c ≠ .flushdb) (hfix : ∀ n, c ≠ .zfix n) : c.numbered = true := by
  cases hp : c.plain with
  | true =>
    rw [Call.numbered.eq_def]
    split
    · rfl
    · rfl
    · exact hp
  | false =>
    rw [Call.plain.eq_def] at hp
    split at hp
    · rfl
    · rfl
    · exact absurd rfl (hfix _)
    · exact absurd rfl hflush
    · exact Bool.noConfusion hp

theorem exec_orderly (hflush : c ≠ .flushdb) (h : Queues.Orderly w)
    (hc : StaysInside (c, .none) w) : Queues.Orderly (c.exec .none w).2 := by
  by_cases hfix : ∃ n, c = .zfix n
  · obtain ⟨n, rfl⟩ := hfix
    obtain ⟨Q, hQ⟩ := h.stores
    have hsize : DataType.QSIZE ∉ (Call.zfix n).heads := by
      change _ ∉ (Container.zset []).heads
      decide
    have hitem : DataType.QUEUE ∉ (Call.zfix n).heads := by
      change _ ∉ (Container.zset []).heads
      decide
    exact ⟨⟨Q, hQ.congr (Call.exec_data hflush hsize (by decide) .none w)
      (Call.exec_data hflush hitem (by decide) .none w)⟩, Container.formed_exec _ _ h.formed⟩
  · exact Queues.orderly_step (e := (c, .none)) (numbered_other hflush (not_exists.mp hfix)) h hc

theorem exec_zsets (hflush : c ≠ .flushdb) (h : Tidy w)
    (hseq : w.ldb.sequence ≤ kMaxSequenceNumber) :
    ∃ Z, ScoredSet.Indexed (c.exec .none w).2.ldb.data Z ∧
      ScoredSet.AtMost (c.exec .none w).2.ldb Z := by
  obtain ⟨Z, hI, hA⟩ := h.zsets hseq
  by_cases hfix : ∃ n, c = .zfix n
  · obtain ⟨n, rfl⟩ := hfix
    have hr := ScoredSet.zfix_recounted hI h.orderly.formed.table h.faults hseq hA n
    have hldb : ((Call.zfix n).exec .none w).2.ldb = (zfix n w).2.ldb := Call.exec_ldb rfl h.faults
    rw [hldb]
    generalize (zfix n w).2 = w' at hr
    have hdata (key : Bytes) (hkey : key ≠ encodeZsizeKey n)
        (hlog : key.head? ≠ some DataType.SYNCLOG) : w'.ldb.data key = w.ldb.data key := by
      rw [LevelDB.data_eq hlog, LevelDB.data_eq hlog, hr.others key hkey]
    refine ⟨Z, hI.congr (fun key hkey => hdata key ?_ ?_) (fun key hkey => hdata key ?_ ?_),
      fun m => ?_⟩
    · rintro rfl
      exact absurd hkey (by decide : some DataType.ZSIZE ≠ some DataType.ZSET)
    · rw [hkey]
      decide
    · rintro rfl
      exact absurd hkey (by decide : some DataType.ZSIZE ≠ some DataType.ZSCORE)
    · rw [hkey]
      decide
    · rcases eq_or_ne m n with rfl | hm
      · exact hr.count
      · rw [ScoredSet.readCount_congr (hr.others _ fun he => hm (ScoredSet.zsizeKey_injective he))]
        exact hA m
  · rcases zset_heads hflush (not_exists.mp hfix) with hon | ⟨hset, hscore, hsize⟩
    · exact ScoredSet.exec_atMost hon h.faults hseq hI hA
    · have hdata {b : Byte} := Call.exec_data (b := b) hflush
      refine ⟨Z, hI.congr (hdata hset (by decide) .none w) (hdata hscore (by decide) .none w),
        fun m => ?_⟩
      have hsame := hdata hsize (by decide) .none w (encodeZsizeKey m) rfl
      rw [LevelDB.data_eq (ScoredSet.zsizeKey_data m), LevelDB.data_eq (ScoredSet.zsizeKey_data m)]
        at hsame
      rw [ScoredSet.readCount_congr hsame]
      exact hA m

theorem deleted_empty {ops : List BatchOp} (hops : ∀ op ∈ ops, Deletes op.toRec)
    {t : OrdMap Bytes Bytes} (ht : t.entries = []) : (ops.foldl BatchOp.apply t).entries = [] := by
  induction ops generalizing t with
  | nil => exact ht
  | cons op ops ih =>
    refine ih (fun op' h' => hops op' (by simp [h'])) ?_
    obtain ⟨key, hkey⟩ := hops op (by simp)
    cases op with
    | put k v => exact Rec.noConfusion hkey
    | delete k => simp only [BatchOp.apply, OrdMap.erase, ht, List.filter_nil]

theorem empty_kept : Kept Deletes fun w =>
    w.ldb.table.entries = [] ∧ ∀ op ∈ w.binlogs.batch, Deletes op.toRec where
  faults _ h := h
  start h := ⟨h.1, fun _ hop => absurd hop List.not_mem_nil⟩
  draft {w r} hr h := by
    obtain ⟨key, rfl⟩ := hr
    refine ⟨h.1, fun op hop => ?_⟩
    rcases List.mem_append.mp hop with hop | hop
    · exact h.2 op hop
    · exact ⟨key, by rw [List.mem_singleton.mp hop]; rfl⟩
  commit h := ⟨deleted_empty h.2 h.1, h.2⟩
  stop h := h
  write hb h := ⟨deleted_empty hb h.1, h.2⟩

theorem flushdb_empty (hw : w.faults = Faults.none) : (flushdb w).2.ldb.table.entries = [] := by
  obtain ⟨db, hwipe, hnone, -⟩ := wipe_spec (w := w) (by rw [hw]; rfl)
  have hrun : (flushdb w).2 = (Binlogs.flush (wipe w).2).2 := rfl
  rw [hrun, Binlogs.flush, M.bind_apply, M.get_apply]
  refine (keeps_delRangeFrom empty_kept _ _ _ _ ?_).1
  rw [hwipe]
  exact ⟨hnone, fun _ hop => absurd hop List.not_mem_nil⟩

theorem step (h : Tidy w) (hc : StaysInside (c, .none) w) : Tidy (c.exec .none w).2 := by
  have hnumbers := Call.exec_numbers c .none h.numbers
  by_cases hflush : c = .flushdb
  · subst hflush
    have hempty := flushdb_empty h.faults
    rw [← Call.exec_ldb (c := .flushdb) rfl h.faults] at hempty
    obtain ⟨hqueues, hhashes, hzsets⟩ := emptied hempty
    exact ⟨rfl, hnumbers, ⟨hqueues, Container.formed_exec _ _ h.orderly.formed⟩, hhashes,
      fun _ => hzsets⟩
  · exact ⟨rfl, hnumbers, exec_orderly hflush h.orderly hc,
      HashTable.exec_counted hflush rfl h.hashes,
      fun hseq => exec_zsets hflush h ((Call.exec_sequence c .none w).trans hseq)⟩

end Tidy

namespace Call
open SSDBImpl

def Contained (cs : List Call) (w : SSDBImpl) : Prop :=
  Trace.Along next Queues.StaysInside (cs.map (fun c => (c, Faults.none))) w

theorem after_tidy {cs : List Call} {enabled : Bool} {capacity : Int32}
    (h : Contained cs (SSDBImpl.fresh enabled capacity)) :
    Tidy (after cs (SSDBImpl.fresh enabled capacity)) := by
  have hquiet : Trace.Along next (fun e _ => e.2 = Faults.none) (cs.map (fun c => (c, Faults.none)))
      (SSDBImpl.fresh enabled capacity) :=
    Trace.along_of_forall fun e he => by
      obtain ⟨c, -, rfl⟩ := List.mem_map.mp he
      rfl
  have hrun := (hquiet.and h).invariant (J := Tidy) (fun e w he hw => by
    obtain ⟨c, f⟩ := e
    obtain rfl : f = Faults.none := he.1
    exact hw.step he.2) (Tidy.fresh enabled capacity)
  rwa [run_next] at hrun

end Call
