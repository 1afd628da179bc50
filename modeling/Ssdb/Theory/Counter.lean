import Ssdb.Plan.Kv

def counter (c : ℕ) : Option Bytes :=
  if c = 0 then none else some (Endian.memory (Int64.ofNat c).toUInt64)

namespace Counter
open SSDBImpl

theorem ofNat_toInt {c : ℕ} (hc : c < 2 ^ 63) : (Int64.ofNat c).toInt = c :=
  Int64.toInt_ofNat_of_lt hc

theorem ofNat_ne_zero {c : ℕ} (hc : c < 2 ^ 63) (h : c ≠ 0) : Int64.ofNat c ≠ 0 := by
  intro h0
  have hi := ofNat_toInt hc
  rw [h0, Int64.toInt_zero] at hi
  omega

theorem readCount_counter {db : LevelDB} {sizeKey : Bytes} {c : ℕ} (hc : c < 2 ^ 63)
    (h : db.table.get sizeKey = counter c) : db.readCount sizeKey = Int64.ofNat c := by
  rw [LevelDB.readCount, h, counter]
  rcases eq_or_ne c 0 with rfl | h0
  · rfl
  · have hneg : ¬Int64.ofNat c < 0 := by
      rw [Int64.lt_iff_toInt_lt, ofNat_toInt hc, Int64.toInt_zero]
      omega
    simp [h0, hneg]

theorem ofNat_succ (c : ℕ) : Int64.ofNat c + 1 = Int64.ofNat (c + 1) := (Int64.ofNat_add c 1).symm

theorem ofNat_pred {c : ℕ} (h : c ≠ 0) : Int64.ofNat c + -1 = Int64.ofNat (c - 1) := by
  obtain ⟨n, rfl⟩ := Nat.exists_eq_succ_of_ne_zero h
  rw [Nat.succ_eq_add_one, ← ofNat_succ, Nat.add_sub_cancel, Int64.add_assoc]
  exact Int64.add_zero _

theorem countRecs_effect {db : LevelDB} {sizeKey : Bytes} {c c' : ℕ} {incr : Int64}
    (d : Bytes → Option Bytes) (hc : c < 2 ^ 63) (hc' : c' < 2 ^ 63)
    (h : db.table.get sizeKey = counter c) (hincr : Int64.ofNat c + incr = Int64.ofNat c') :
    (countRecs db sizeKey incr).foldl Rec.effect d = Function.update d sizeKey (counter c') := by
  rw [countRecs, readCount_counter hc h, hincr, counter]
  rcases eq_or_ne c' 0 with rfl | h0
  · rfl
  · simp only [if_neg (ofNat_ne_zero hc' h0), if_neg h0, List.foldl_cons, List.foldl_nil, Rec.effect]

theorem countRecs_update (db : LevelDB) (sizeKey : Bytes) (incr : Int64)
    (d : Bytes → Option Bytes) : ∃ v,
      (countRecs db sizeKey incr).foldl Rec.effect d = Function.update d sizeKey v := by
  rw [countRecs]
  split_ifs
  · exact ⟨_, rfl⟩
  · exact ⟨_, rfl⟩

theorem countRecs_onData {db : LevelDB} {sizeKey : Bytes} {incr : Int64}
    (h : sizeKey.head? ≠ some DataType.SYNCLOG) : ∀ r ∈ countRecs db sizeKey incr, r.OnData := by
  intro r hr
  rw [countRecs] at hr
  split_ifs at hr
  · rw [List.mem_singleton.mp hr]
    trivial
  · rw [List.mem_singleton.mp hr]
    exact h

variable {w : SSDBImpl}

def Settles (p : Plan Int) (w : SSDBImpl) (ret : Int) (d : Bytes → Option Bytes) : Prop :=
  (p.run w).1 = ret ∧ (p.run w).2.ldb.data = d

theorem settles_abort (draft : Int × List Rec) (count : List Rec) (h : draft.1 < 0) :
    Settles (settlePlan draft count) w draft.1 w.ldb.data := by
  rw [Settles, settlePlan, if_pos h]
  exact ⟨rfl, rfl⟩

theorem settles_commit (draft : Int × List Rec) (count : List Rec)
    (hok : w.faults.write.head? ≠ some true) (h : 0 ≤ draft.1) (hd : ∀ r ∈ draft.2, r.OnData)
    (hc : ∀ r ∈ count, r.OnData) :
    Settles (settlePlan draft count) w draft.1
      ((if draft.1 = 0 then draft.2 else draft.2 ++ count).foldl Rec.effect w.ldb.data) := by
  rw [Settles, settlePlan, if_neg (not_lt.mpr h), Plan.run_commit _ _ _ _ hok]
  refine ⟨rfl, w.committed_data ?_⟩
  intro r hr
  split_ifs at hr
  · exact hd r hr
  · exact (List.mem_append.mp hr).elim (hd r) (hc r)

end Counter
