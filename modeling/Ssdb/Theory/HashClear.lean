import Ssdb.Store.Regions
import Ssdb.Theory.HashTable

namespace HashTable
open Keys SSDBImpl

variable {H : HashTable} {n : Bytes}

theorem encodeHashKey_append (n k : Bytes) : encodeHashKey n k = encodeHashKey n [] ++ k := by
  simp [encodeHashKey]

section scan
variable {db : LevelDB} (hF : Fields db.data H)
include hF

theorem region_fields (n : Bytes) : db.region (encodeHashKey n []) = H n := by
  refine OrdMap.ext_get fun k => ?_
  rw [LevelDB.get_region, ← encodeHashKey_append, hash_get, hF.field n k]

theorem yields_fields (n stop : Bytes) :
    db.Yields (encodeHashKey n []) stop (hVerdict n) id where
  item e he := by
    rw [region_fields hF n] at he
    have hget := (OrdMap.mem_entries_iff _ _ _).mp he
    have ha := hF.admitted n e.1 (by simp [hget])
    have hhead : (encodeHashKey n e.1).head? = some DataType.HASH := rfl
    rw [OrdMap.extend, ← encodeHashKey_append]
    simp [hVerdict, hhead, decode_hash_key e.1 ha.2.2.1]
  ends _ e he hq := by
    by_cases hhead : e.1.head? = some DataType.HASH
    · have hget := (OrdMap.mem_entries_iff db.table e.1 e.2).mp he
      have hdata : db.data e.1 = some e.2 := by
        rw [LevelDB.data_eq (by simp [hhead, DataType.HASH, DataType.SYNCLOG, Strings.charByte]),
          hget]
      obtain ⟨m, k, hmk⟩ := hF.typed e.1 hhead (by simp [hdata])
      rw [hmk, hF.field] at hdata
      have ha := hF.admitted m k (by simp [hdata])
      have hne : m ≠ n := by
        rintro rfl
        exact hq ⟨k, by rw [hmk, ← encodeHashKey_append]⟩
      simp only [hVerdict, hmk, decode_hash_key k ha.2.2.1, if_pos hne]
      rfl
    · simp [hVerdict, hhead]

end scan

variable {w : SSDBImpl}

theorem hscan_fields (hF : Fields w.ldb.data H) (n start stop : Bytes) (limit : UInt64) :
    (hscan n start stop limit w).1.rest =
      ((H n).entries.filter (LevelDB.between start stop)).take limit.toNat := by
  have hrun : (hscan n start stop limit w).1.rest =
      (w.ldb.iterator (encodeHashKey n [] ++ start) (LevelDB.bound (encodeHashKey n []) stop)
        limit.toNat).items (hVerdict n) := by
    rw [LevelDB.bound, ← encodeHashKey_append, ← encodeHashKey_append]
    rfl
  rw [hrun, (yields_fields hF n stop).forward, region_fields hF n, List.map_id]

theorem hrscan_fields (hF : Fields w.ldb.data H) (n start stop : Bytes) (limit : UInt64) :
    (hrscan n start stop limit w).1.rest =
      ((H n).entries.filter
        (LevelDB.betweenDown (if start = [] then [255] else start) stop)).reverse.take
          limit.toNat := by
  have hstart : (if start = [] then encodeHashKey n start ++ [255] else encodeHashKey n start) =
      encodeHashKey n [] ++ (if start = [] then [255] else start) := by
    split_ifs with h
    · rw [h]
    · exact encodeHashKey_append n start
  have hrun : (hrscan n start stop limit w).1.rest =
      (w.ldb.revIterator (encodeHashKey n [] ++ (if start = [] then [255] else start))
        (LevelDB.bound (encodeHashKey n []) stop) limit.toNat).items (hVerdict n) := by
    rw [LevelDB.bound, ← encodeHashKey_append n stop, ← hstart]
    rfl
  rw [hrun, (yields_fields hF n stop).backward, region_fields hF n, List.map_id]

theorem fields_nonempty {d : Bytes → Option Bytes} (hF : Fields d H) {e : Bytes × Bytes}
    (he : e ∈ (H n).entries) : e.1 ≠ [] :=
  (hF.admitted n e.1 (by simp [(OrdMap.mem_entries_iff _ _ _).mp he])).2.1

theorem between_all {d : Bytes → Option Bytes} (hF : Fields d H) (n : Bytes) :
    (H n).entries.filter (LevelDB.between [] []) = (H n).entries := by
  refine List.filter_eq_self.mpr fun e he => ?_
  have hlt := (Lexicographic.nil_lt_iff e.1).mpr (fields_nonempty hF he)
  simp [LevelDB.between, hlt]

theorem hscan_rest (hF : Fields w.ldb.data H) (limit : UInt64) :
    (hscan n [] [] limit w).1.rest = (H n).entries.take limit.toNat := by
  rw [hscan_fields hF, between_all hF]

structure Holds (counted : Prop) (w : SSDBImpl) (H : HashTable) : Prop where
  fields : Fields w.ldb.data H
  sizes : counted → w.ldb.sequence ≤ kMaxSequenceNumber → Sizes w.ldb.data H

variable {counted : Prop} {k : Bytes} {t : Byte}

theorem Holds.bound (h : Holds counted w H) (hseq : w.ldb.sequence ≤ kMaxSequenceNumber)
    (m : Bytes) : (H m).size + 1 < 2 ^ 63 := by
  have h1 := size_le_table h.fields m
  have h2 := w.ldb.size_le
  rw [kMaxSequenceNumber] at hseq
  omega

theorem Holds.step (h : Holds counted w H) {r : Int × SSDBImpl} {ret : Int} {H' : HashTable}
    (hr : Result w H r ret H') (hmono : w.ldb.sequence ≤ r.2.ldb.sequence) :
    Holds counted r.2 H' where
  fields := hr.fields
  sizes hc hseq := by
    have hseq' := hmono.trans hseq
    exact hr.sizes (h.bound hseq') (h.sizes hc hseq')

theorem Holds.same {w' : SSDBImpl} (h : Holds counted w H) (hldb : w'.ldb = w.ldb) :
    Holds counted w' H := ⟨hldb ▸ h.fields, fun hc hseq => by
      rw [hldb] at hseq ⊢
      exact h.sizes hc hseq⟩

theorem hset_sequence (n k v : Bytes) (t : Byte) (hget : w.faults.get = []) :
    w.ldb.sequence ≤ (hset n k v t w).2.ldb.sequence := by
  rw [hset_plan n k v t hget]
  exact Plan.run_sequence w _

theorem hdel_sequence (n k : Bytes) (t : Byte) (hget : w.faults.get = []) :
    w.ldb.sequence ≤ (hdel n k t w).2.ldb.sequence := by
  rw [hdel_plan n k t hget]
  exact Plan.run_sequence w _

theorem hdelPlan_present (hF : Fields w.ldb.data H) (hk : (H n).get k ≠ none) :
    hdelPlan w.ldb n k t = .commit (hdelRecs n k t ++ countRecs w.ldb (encodeHsizeKey n) (-1)) 1 (-1) := by
  have ha := hF.admitted n k hk
  have hshort : ¬(n.length > SSDB_KEY_LEN_MAX ∨ k.length > SSDB_KEY_LEN_MAX) :=
    not_or.mpr ⟨not_lt.mpr ha.2.2.1, not_lt.mpr ha.2.2.2⟩
  obtain ⟨v, hv⟩ := Option.ne_none_iff_exists'.mp hk
  rw [hdelPlan, hdelOneDraft_short n k t w.ldb hshort, hash_get, hF.field n k, hv]
  rfl

theorem hdel_present (h : Holds counted w H) (hget : w.faults.get = [])
    (hk : (H n).get k ≠ none) :
    (hdel n k t w).2.faults = ⟨[], w.faults.write.tail⟩ ∧
      ((hdel n k t w).1 = 1 ∧ Holds counted (hdel n k t w).2 (H.remove n k) ∨
        w.faults.write.head? = some true ∧ (hdel n k t w).1 = -1 ∧
          Holds counted (hdel n k t w).2 H) := by
  have hrun := hdel_plan (w := w) n k t hget
  rw [hdelPlan_present h.fields hk] at hrun
  by_cases hw : w.faults.write.head? = some true
  · rw [Plan.run_commit_failed w _ _ _ hw] at hrun
    rw [hrun]
    exact ⟨by rw [failed_faults, hget], .inr ⟨hw, rfl, h.same (failed_ldb w _)⟩⟩
  · have hresult := hdel_result (n := n) (k := k) (t := t) h.fields hget hw
    have hH := h.step hresult (hdel_sequence n k t hget)
    rw [Plan.run_commit w _ _ _ hw] at hrun
    rw [hrun] at hH ⊢
    exact ⟨by rw [committed_faults, hget], .inl ⟨rfl, hH⟩⟩

theorem remove_first {v : Bytes} {es : List (Bytes × Bytes)} (h : (H n).entries = (k, v) :: es) :
    ((H.remove n k) n).entries = es := by
  rw [remove, Function.update_self]
  exact OrdMap.erase_first h

def Cleared (counted : Prop) (H : HashTable) (n : Bytes) (left : List (Bytes × Bytes))
    (w' : SSDBImpl) : Prop :=
  ∃ H', Holds counted w' H' ∧ (H' n).entries = left ∧ ∀ m, m ≠ n → H' m = H m

def Stuck (counted : Prop) (H : HashTable) (n : Bytes) (w w' : SSDBImpl) : Prop :=
  true ∈ w.faults.write ∧ (H n).entries ≠ [] ∧
    ∃ H', Holds counted w' H' ∧ (H' n).entries ≠ [] ∧ ∀ m, m ≠ n → H' m = H m

theorem hclearRound_cleared (es left : List (Bytes × Bytes)) (num : ℕ) (h : Holds counted w H)
    (hget : w.faults.get = []) (hes : (H n).entries = es ++ left) :
    (hclearRound n t es num w).2.faults.get = [] ∧
      (hclearRound n t es num w).2.faults.write <:+ w.faults.write ∧
      ((hclearRound n t es num w).1 = some (num + es.length) ∧
          Cleared counted H n left (hclearRound n t es num w).2 ∨
        (hclearRound n t es num w).1 = none ∧
          Stuck counted H n w (hclearRound n t es num w).2) := by
  induction es generalizing num w H with
  | nil => exact ⟨hget, List.suffix_rfl, .inl ⟨rfl, H, h, hes, fun _ _ => rfl⟩⟩
  | cons e es ih =>
    obtain ⟨k, v⟩ := e
    have hk : (H n).get k = some v := by
      rw [← OrdMap.mem_entries_iff, hes]
      simp
    obtain ⟨hfaults, hcase⟩ := hdel_present (t := t) h hget (Option.ne_none_iff_exists'.mpr ⟨v, hk⟩)
    have hrun : hclearRound n t ((k, v) :: es) num w =
        if (hdel n k t w).1 = -1 then (none, (hdel n k t w).2)
        else hclearRound n t es (num + 1) (hdel n k t w).2 := by
      simp only [hclearRound, M.bind_apply, M.ite_apply, M.pure_apply]
    have htail : (hdel n k t w).2.faults.write <:+ w.faults.write := by
      rw [hfaults]
      exact List.tail_suffix _
    rcases hcase with ⟨hret, hH⟩ | ⟨hw, hret, hH⟩
    · have hother : ∀ m, m ≠ n → (H.remove n k) m = H m := fun m hm => Function.update_of_ne hm _ _
      obtain ⟨h1, h2, h3⟩ := ih (num + 1) hH (by rw [hfaults]) (remove_first hes)
      rw [hrun, hret, if_neg (by decide)]
      refine ⟨h1, h2.trans htail, ?_⟩
      rcases h3 with ⟨hr, H', hH', he, ho⟩ | ⟨hr, hw, -, H', hH', he, ho⟩
      · refine .inl ⟨?_, H', hH', he, fun m hm => (ho m hm).trans (hother m hm)⟩
        rw [hr, List.length_cons]
        congr 1
        omega
      · exact .inr ⟨hr, htail.subset hw, by rw [hes]; simp, H', hH', he,
          fun m hm => (ho m hm).trans (hother m hm)⟩
    · rw [hrun, hret, if_pos rfl]
      exact ⟨by rw [hfaults], htail, .inr ⟨rfl, List.mem_of_head? hw, by rw [hes]; simp, H, hH,
        by rw [hes]; simp, fun _ _ => rfl⟩⟩

theorem hclearFrom_cleared (fuel count : ℕ) (h : Holds counted w H) (hget : w.faults.get = [])
    (hfuel : (H n).size < fuel) :
    (hclearFrom n fuel count w).1 = count + (H n).size ∧
        Cleared counted H n [] (hclearFrom n fuel count w).2 ∨
      (hclearFrom n fuel count w).1 = 0 ∧ Stuck counted H n w (hclearFrom n fuel count w).2 := by
  induction fuel generalizing count w H with
  | zero => omega
  | succ fuel ih =>
    have hrest := hscan_rest (n := n) h.fields 1000
    have hsplit := (List.take_append_drop 1000 (H n).entries).symm
    obtain ⟨h1, h2, h3⟩ := hclearRound_cleared (t := BinlogType.SYNC) _ _ 0 h hget hsplit
    have hstate : (hscan n [] [] 1000 w).2 = w := rfl
    have hlen : ((H n).entries.take 1000).length = min 1000 (H n).size := List.length_take
    have hlimit : UInt64.toNat 1000 = 1000 := by decide
    simp only [hclearFrom, M.bind_apply, hrest, hstate, hlimit]
    rw [Nat.zero_add] at h3
    rcases h3 with ⟨hr, H', hH', he, ho⟩ | ⟨hr, hstuck⟩
    · rw [hr, hlen]
      have hsize : (H' n).size = (H n).size - 1000 := by rw [OrdMap.size, he, List.length_drop]; rfl
      cases hmin : min 1000 (H n).size with
      | zero =>
        have h0 : (H n).size = 0 := by omega
        refine .inl ⟨?_, H', hH', ?_, ho⟩
        · simp [M.pure_apply, h0]
        · rw [he, List.drop_eq_nil_iff.mpr]
          exact h0.le.trans (by omega)
      | succ num =>
        rcases ih (count + (num + 1)) hH' h1 (by omega) with
          ⟨hc, H2, hH2, he2, ho2⟩ | ⟨hc, hw, -, H2, hH2, he2, ho2⟩
        · refine .inl ⟨hc.trans ?_, H2, hH2, he2, fun m hm => (ho2 m hm).trans (ho m hm)⟩
          rw [hsize]
          omega
        · have hne : (H n).entries ≠ [] := fun h0 => by simp [OrdMap.size, h0] at hmin
          exact .inr ⟨hc, h2.subset hw, hne, H2, hH2, he2, fun m hm => (ho2 m hm).trans (ho m hm)⟩
    · rw [hr]
      exact .inr ⟨rfl, hstuck⟩

theorem hclear_cleared (h : Holds counted w H) (hget : w.faults.get = []) :
    (hclear n w).1 = (H n).size ∧ Cleared counted H n [] (hclear n w).2 ∨
      (hclear n w).1 = 0 ∧ Stuck counted H n w (hclear n w).2 := by
  have hrun : hclear n w = hclearFrom n (w.ldb.table.size + 1) 0 w := rfl
  have hsize := size_le_table h.fields n
  rw [hrun]
  rcases hclearFrom_cleared (w.ldb.table.size + 1) 0 h hget (Nat.lt_succ_of_le hsize) with ⟨hr, hc⟩ | hs
  · exact .inl ⟨by rw [hr]; simp, hc⟩
  · exact .inr hs

end HashTable
