import Ssdb.Plan.Hash
import Ssdb.Store.Scan
import Ssdb.Theory.Counter

abbrev HashTable := Bytes → OrdMap Bytes Bytes

namespace HashTable
open Keys SSDBImpl

def Admitted (name key : Bytes) : Prop :=
  name ≠ [] ∧ key ≠ [] ∧ name.length ≤ SSDB_KEY_LEN_MAX ∧ key.length ≤ SSDB_KEY_LEN_MAX

instance (name key : Bytes) : Decidable (Admitted name key) := by
  unfold Admitted
  infer_instance

structure Fields (d : Bytes → Option Bytes) (H : HashTable) : Prop where
  field : ∀ n k, d (encodeHashKey n k) = (H n).get k
  admitted : ∀ n k, (H n).get k ≠ none → Admitted n k
  typed : ∀ key, key.head? = some DataType.HASH → d key ≠ none → ∃ n k, key = encodeHashKey n k

def Sizes (d : Bytes → Option Bytes) (H : HashTable) : Prop :=
  ∀ n, d (encodeHsizeKey n) = counter (H n).size

def put (H : HashTable) (n k v : Bytes) : HashTable := Function.update H n ((H n).insert k v)

def remove (H : HashTable) (n k : Bytes) : HashTable := Function.update H n ((H n).erase k)

variable {d : Bytes → Option Bytes} {H : HashTable}

theorem get_put (H : HashTable) (n k v m l : Bytes) :
    ((H.put n k v) m).get l = if m = n ∧ l = k then some v else (H m).get l := by
  rcases eq_or_ne m n with rfl | hm
  · simp [put, OrdMap.get_insert]
  · simp [put, hm]

theorem get_remove (H : HashTable) (n k m l : Bytes) :
    ((H.remove n k) m).get l = if m = n ∧ l = k then none else (H m).get l := by
  rcases eq_or_ne m n with rfl | hm
  · simp [remove, OrdMap.get_erase]
  · simp [remove, hm]

theorem encodeHashKey_eq_iff {n k m l : Bytes} (h : Admitted n k) :
    encodeHashKey m l = encodeHashKey n k ↔ m = n ∧ l = k := by
  constructor
  · intro he
    obtain ⟨h1, h2⟩ := encodeHashKey_injective h.2.2.1 h.2.2.2 he.symm
    exact ⟨h1.symm, h2.symm⟩
  · rintro ⟨rfl, rfl⟩
    rfl

namespace Fields

theorem put (hF : Fields d H) {n k : Bytes} (h : Admitted n k) (v : Bytes) :
    Fields (Function.update d (encodeHashKey n k) (some v)) (H.put n k v) where
  field m l := by
    rw [Function.update_apply, get_put, ← hF.field m l]
    simp only [encodeHashKey_eq_iff h]
  admitted m l hl := by
    rw [get_put] at hl
    split_ifs at hl with hml
    · rw [hml.1, hml.2]
      exact h
    · exact hF.admitted m l hl
  typed key hkey hd := by
    rw [Function.update_apply] at hd
    split_ifs at hd with heq
    · exact ⟨n, k, heq⟩
    · exact hF.typed key hkey hd

theorem remove (hF : Fields d H) {n k : Bytes} (h : Admitted n k) :
    Fields (Function.update d (encodeHashKey n k) none) (H.remove n k) where
  field m l := by
    rw [Function.update_apply, get_remove, ← hF.field m l]
    simp only [encodeHashKey_eq_iff h]
  admitted m l hl := by
    rw [get_remove] at hl
    split_ifs at hl with hml
    · exact absurd rfl hl
    · exact hF.admitted m l hl
  typed key hkey hd := by
    rw [Function.update_apply] at hd
    split_ifs at hd with heq
    · exact absurd rfl hd
    · exact hF.typed key hkey hd

theorem frame (hF : Fields d H) {key : Bytes} (v : Option Bytes)
    (h : key.head? ≠ some DataType.HASH) : Fields (Function.update d key v) H where
  field m l := by
    rw [Function.update_apply, if_neg, hF.field m l]
    rintro rfl
    exact h rfl
  admitted := hF.admitted
  typed key' hkey hd := by
    rw [Function.update_apply] at hd
    split_ifs at hd with heq
    · exact absurd (heq ▸ hkey) h
    · exact hF.typed key' hkey hd

theorem get_none (hF : Fields d H) {n k : Bytes} (h : ¬Admitted n k) : (H n).get k = none := by
  by_contra hne
  exact h (hF.admitted n k hne)

end Fields

theorem fields_empty : Fields (LevelDB.empty.data) (fun _ => OrdMap.empty) where
  field n k := LevelDB.data_eq (by simp [encodeHashKey, DataType.HASH, DataType.SYNCLOG, Strings.charByte])
  admitted n k h := absurd rfl h
  typed key hkey hd := by
    refine absurd ?_ hd
    simp only [LevelDB.data, dataOf]
    split_ifs <;> rfl

theorem size_le_table {db : LevelDB} (hF : Fields db.data H) (n : Bytes) :
    (H n).size ≤ db.table.size := by
  have hinj : ((H n).keys.map (encodeHashKey n)).Nodup := by
    refine List.Nodup.map_on ?_ (H n).keys_nodup
    intro k hk l _ he
    have hadm := hF.admitted n k (((H n).mem_keys_iff k).mp hk)
    exact (encodeHashKey_injective hadm.2.2.1 hadm.2.2.2 he).2
  have hsub : (H n).keys.map (encodeHashKey n) ⊆ db.table.keys := by
    intro key hkey
    obtain ⟨k, hk, rfl⟩ := List.mem_map.mp hkey
    rw [OrdMap.mem_keys_iff]
    have hget := ((H n).mem_keys_iff k).mp hk
    rw [← hF.field n k] at hget
    intro hnone
    apply hget
    simp only [LevelDB.data, dataOf, hnone, ite_self]
  have hlen := (List.subperm_of_subset hinj hsub).length_le
  simpa [OrdMap.keys, OrdMap.size] using hlen

section requests
variable {w : SSDBImpl} (n k v : Bytes) (t : Byte)

theorem hash_get (db : LevelDB) : db.table.get (encodeHashKey n k) = db.data (encodeHashKey n k) :=
  (LevelDB.data_eq (by simp [encodeHashKey, DataType.HASH, DataType.SYNCLOG, Strings.charByte])).symm

theorem hsize_get (db : LevelDB) : db.table.get (encodeHsizeKey n) = db.data (encodeHsizeKey n) :=
  (LevelDB.data_eq (by simp [encodeHsizeKey, DataType.HSIZE, DataType.SYNCLOG, Strings.charByte])).symm

theorem hsetOneDraft_rejected (db : LevelDB) (h : ¬Admitted n k) :
    hsetOneDraft db n k v t = (-1, []) := by
  simp only [hsetOneDraft]
  split_ifs with h1 h2 h3
  · rfl
  · rfl
  · rfl
  · rw [not_or] at h1
    exact absurd ⟨h1.1, h1.2, not_lt.mp h2, not_lt.mp h3⟩ h

theorem hsetOneDraft_admitted (db : LevelDB) (h : Admitted n k) :
    hsetOneDraft db n k v t =
      match db.table.get (encodeHashKey n k) with
      | none => (1, hsetRecs n k v t)
      | some old => (0, if old ≠ v then hsetRecs n k v t else []) := by
  have h1 : ¬(n = [] ∨ k = []) := not_or.mpr ⟨h.1, h.2.1⟩
  have h2 : ¬n.length > SSDB_KEY_LEN_MAX := not_lt.mpr h.2.2.1
  have h3 : ¬k.length > SSDB_KEY_LEN_MAX := not_lt.mpr h.2.2.2
  cases hold : db.table.get (encodeHashKey n k) with
  | none => simp only [hsetOneDraft, if_neg h1, if_neg h2, if_neg h3, hold]
  | some old => simp only [hsetOneDraft, if_neg h1, if_neg h2, if_neg h3, hold]

theorem hsetRecs_onData : ∀ r ∈ hsetRecs n k v t, r.OnData := by
  simp [hsetRecs, Rec.OnData, encodeHashKey, DataType.HASH, DataType.SYNCLOG, Strings.charByte]

theorem hdelRecs_onData : ∀ r ∈ hdelRecs n k t, r.OnData := by
  simp [hdelRecs, Rec.OnData]

theorem hsizeKey_data : (encodeHsizeKey n).head? ≠ some DataType.SYNCLOG := by
  simp [encodeHsizeKey, DataType.HSIZE, DataType.SYNCLOG, Strings.charByte]

theorem hdelOneDraft_long (db : LevelDB)
    (h : n.length > SSDB_KEY_LEN_MAX ∨ k.length > SSDB_KEY_LEN_MAX) :
    hdelOneDraft db n k t = (-1, []) := by
  simp only [hdelOneDraft]
  split_ifs with h1 h2
  · rfl
  · rfl
  · exact absurd h (not_or.mpr ⟨h1, h2⟩)

theorem hdelOneDraft_short (db : LevelDB)
    (h : ¬(n.length > SSDB_KEY_LEN_MAX ∨ k.length > SSDB_KEY_LEN_MAX)) :
    hdelOneDraft db n k t =
      match db.table.get (encodeHashKey n k) with
      | none => (0, [])
      | some _ => (1, hdelRecs n k t) := by
  obtain ⟨hn, hk⟩ := not_or.mp h
  cases hold : db.table.get (encodeHashKey n k) with
  | none => simp only [hdelOneDraft, if_neg hn, if_neg hk, hold]
  | some old => simp only [hdelOneDraft, if_neg hn, if_neg hk, hold]

def set (H : HashTable) (n k v : Bytes) : HashTable := if Admitted n k then H.put n k v else H

def setReply (H : HashTable) (n k : Bytes) : Int :=
  if Admitted n k then (if (H n).get k = none then 1 else 0) else -1

def delReply (H : HashTable) (n k : Bytes) : Int :=
  if n.length > SSDB_KEY_LEN_MAX ∨ k.length > SSDB_KEY_LEN_MAX then -1
  else if (H n).get k = none then 0 else 1

theorem remove_absent {n k : Bytes} (h : (H n).get k = none) : H.remove n k = H := by
  funext m
  apply OrdMap.ext_get
  intro l
  rw [get_remove]
  split_ifs with hml
  · rw [hml.1, hml.2, h]
  · rfl

variable {n k t}

theorem Sizes.update {d' : Bytes → Option Bytes} (hS : Sizes d H) {T : OrdMap Bytes Bytes}
    (hn : d' (encodeHsizeKey n) = counter T.size)
    (hother : ∀ m, m ≠ n → d' (encodeHsizeKey m) = d (encodeHsizeKey m)) :
    Sizes d' (Function.update H n T) := by
  intro m
  rcases eq_or_ne m n with rfl | hm
  · rw [hn, Function.update_self]
  · rw [hother m hm, Function.update_of_ne hm, hS m]

theorem hsizeKey_ne {m n : Bytes} (h : m ≠ n) : encodeHsizeKey m ≠ encodeHsizeKey n :=
  fun he => h (List.cons.inj he).2

theorem hsizeKey_ne_hashKey (m n k : Bytes) : encodeHsizeKey m ≠ encodeHashKey n k := by
  simp [encodeHsizeKey, encodeHashKey, DataType.HSIZE, DataType.HASH, Strings.charByte]

theorem Sizes.after (hS : Sizes d H) (T : OrdMap Bytes Bytes) (v : Option Bytes)
    (hn : T.size = (H n).size) :
    Sizes (Function.update d (encodeHashKey n k) v) (Function.update H n T) := by
  have hframe (m : Bytes) : Function.update d (encodeHashKey n k) v (encodeHsizeKey m) =
      d (encodeHsizeKey m) := Function.update_of_ne (hsizeKey_ne_hashKey m n k) _ _
  refine hS.update ?_ fun m _ => hframe m
  rw [hframe, hS n, hn]

theorem Sizes.counted (hS : Sizes d H) (T : OrdMap Bytes Bytes) (v : Option Bytes) :
    Sizes (Function.update (Function.update d (encodeHashKey n k) v) (encodeHsizeKey n)
      (counter T.size)) (Function.update H n T) := by
  refine hS.update (Function.update_self _ _ _) fun m hm => ?_
  rw [Function.update_of_ne (hsizeKey_ne hm), Function.update_of_ne (hsizeKey_ne_hashKey m n k)]

structure Result (w : SSDBImpl) (H : HashTable) (r : Int × SSDBImpl) (ret : Int)
    (H' : HashTable) : Prop where
  reply : r.1 = ret
  fields : Fields r.2.ldb.data H'
  sizes : (∀ m, (H m).size + 1 < 2 ^ 63) → Sizes w.ldb.data H → Sizes r.2.ldb.data H'

theorem result_rejected (hF : Fields w.ldb.data H) (count : List Rec) :
    Result w H ((settlePlan (-1, []) count).run w) (-1) H := by
  obtain ⟨h1, h2⟩ := Counter.settles_abort (w := w) (-1, []) count (by decide)
  exact ⟨h1, h2 ▸ hF, fun _ hS => h2 ▸ hS⟩

theorem result_kept {recs count : List Rec} {x : Option Bytes} {T : OrdMap Bytes Bytes}
    (hok : w.faults.write.head? ≠ some true) (hd : ∀ r ∈ recs, r.OnData)
    (hrecs : recs.foldl Rec.effect w.ldb.data = Function.update w.ldb.data (encodeHashKey n k) x)
    (hF : Fields (Function.update w.ldb.data (encodeHashKey n k) x) (Function.update H n T))
    (hsize : T.size = (H n).size) :
    Result w H ((settlePlan (0, recs) count).run w) 0 (Function.update H n T) := by
  have h1 : (settlePlan (0, recs) count).run w = (0, w.committed recs) := Plan.run_commit w _ _ _ hok
  have h2 := w.committed_data hd
  rw [hrecs] at h2
  rw [h1]
  exact ⟨rfl, h2 ▸ hF, fun _ hS => h2 ▸ hS.after T x hsize⟩

theorem result_counted {recs : List Rec} {incr : Int64} {x : Option Bytes}
    {T : OrdMap Bytes Bytes} (hok : w.faults.write.head? ≠ some true) (hd : ∀ r ∈ recs, r.OnData)
    (hrecs : recs.foldl Rec.effect w.ldb.data = Function.update w.ldb.data (encodeHashKey n k) x)
    (hF : Fields (Function.update w.ldb.data (encodeHashKey n k) x) (Function.update H n T))
    (hsize : T.size ≤ (H n).size + 1)
    (hincr : Int64.ofNat (H n).size + incr = Int64.ofNat T.size) :
    Result w H ((settlePlan (1, recs) (countRecs w.ldb (encodeHsizeKey n) incr)).run w) 1
      (Function.update H n T) := by
  have h1 : (settlePlan (1, recs) (countRecs w.ldb (encodeHsizeKey n) incr)).run w =
      (1, w.committed (recs ++ countRecs w.ldb (encodeHsizeKey n) incr)) :=
    Plan.run_commit w _ _ _ hok
  have hall : ∀ r ∈ recs ++ countRecs w.ldb (encodeHsizeKey n) incr, r.OnData := fun r hr =>
    (List.mem_append.mp hr).elim (hd r) (Counter.countRecs_onData (hsizeKey_data n) r)
  have h2 := w.committed_data hall
  rw [List.foldl_append, hrecs] at h2
  rw [h1]
  refine ⟨rfl, ?_, fun hb hS => ?_⟩
  · obtain ⟨y, hy⟩ := Counter.countRecs_update w.ldb (encodeHsizeKey n) incr
      (Function.update w.ldb.data (encodeHashKey n k) x)
    rw [h2, hy]
    exact hF.frame y (by simp [encodeHsizeKey, DataType.HSIZE, DataType.HASH, Strings.charByte])
  · have hn := hb n
    have hget : w.ldb.table.get (encodeHsizeKey n) = counter (H n).size := by
      rw [hsize_get, hS n]
    rw [h2, Counter.countRecs_effect _ (by omega) (by omega) hget hincr]
    exact hS.counted T x

theorem hset_result (v : Bytes) (hF : Fields w.ldb.data H) (hget : w.faults.get = [])
    (hok : w.faults.write.head? ≠ some true) :
    Result w H (hset n k v t w) (H.setReply n k) (H.set n k v) := by
  rw [hset_plan n k v t hget, hsetPlan]
  by_cases ha : Admitted n k
  · have hold := hash_get n k w.ldb
    rw [hF.field n k] at hold
    have hdraft := hsetOneDraft_admitted n k v t w.ldb ha
    have hsize := (H n).size_insert k v
    rw [setReply, if_pos ha, set, if_pos ha]
    cases hnew : (H n).get k with
    | none =>
      rw [hnew, if_pos rfl] at hsize
      rw [hold, hnew] at hdraft
      simp only at hdraft
      rw [hdraft, if_pos rfl]
      exact result_counted hok (hsetRecs_onData n k v t) rfl (hF.put ha v) hsize.le
        (hsize ▸ Counter.ofNat_succ _)
    | some old =>
      rw [hnew, if_neg (by simp)] at hsize
      rw [hold, hnew] at hdraft
      simp only at hdraft
      rw [if_neg (Option.some_ne_none old)]
      by_cases hval : old = v
      · rw [if_neg (not_not.mpr hval)] at hdraft
        have hsame : w.ldb.data = Function.update w.ldb.data (encodeHashKey n k) (some v) := by
          rw [← hval, ← hnew, ← hF.field n k, Function.update_eq_self]
        rw [hdraft]
        exact result_kept hok (by simp) hsame (hF.put ha v) hsize
      · rw [if_pos hval] at hdraft
        rw [hdraft]
        exact result_kept hok (hsetRecs_onData n k v t) rfl (hF.put ha v) hsize
  · rw [setReply, if_neg ha, set, if_neg ha, hsetOneDraft_rejected n k v t w.ldb ha]
    exact result_rejected hF _

theorem hdel_result (hF : Fields w.ldb.data H) (hget : w.faults.get = [])
    (hok : w.faults.write.head? ≠ some true) :
    Result w H (hdel n k t w) (H.delReply n k) (H.remove n k) := by
  rw [hdel_plan n k t hget, hdelPlan]
  by_cases hlong : n.length > SSDB_KEY_LEN_MAX ∨ k.length > SSDB_KEY_LEN_MAX
  · have hnone : (H n).get k = none := hF.get_none fun ha =>
      hlong.elim (not_lt.mpr ha.2.2.1) (not_lt.mpr ha.2.2.2)
    rw [delReply, if_pos hlong, hdelOneDraft_long n k t w.ldb hlong, remove_absent hnone]
    exact result_rejected hF _
  · have hold := hash_get n k w.ldb
    rw [hF.field n k] at hold
    have hdraft := hdelOneDraft_short n k t w.ldb hlong
    have hsize := (H n).size_erase k
    rw [delReply, if_neg hlong]
    cases hthere : (H n).get k with
    | none =>
      rw [hthere, if_pos rfl] at hsize
      rw [hold, hthere] at hdraft
      simp only at hdraft
      have hsame : w.ldb.data = Function.update w.ldb.data (encodeHashKey n k) none := by
        rw [← hthere, ← hF.field n k, Function.update_eq_self]
      rw [hdraft, if_pos rfl]
      refine result_kept hok (by simp) hsame ?_ hsize
      rw [← hsame]
      change Fields _ (H.remove n k)
      rwa [remove_absent hthere]
    | some old =>
      have ha := hF.admitted n k (by simp [hthere])
      have hpos : (H n).size ≠ 0 := fun h0 => by
        have hnil : (H n).entries = [] := List.length_eq_zero_iff.mp h0
        have hnone : (H n).get k = none := by rw [OrdMap.get, hnil, OrdMap.find]
        simp [hnone] at hthere
      rw [hthere, if_neg (by simp)] at hsize
      rw [hold, hthere] at hdraft
      simp only at hdraft
      rw [hdraft, if_neg (Option.some_ne_none old)]
      exact result_counted hok (hdelRecs_onData n k t) rfl (hF.remove ha) (by omega)
        (hsize ▸ Counter.ofNat_pred hpos)

end requests

end HashTable
