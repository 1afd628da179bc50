import Ssdb.Plan.Zset
import Ssdb.Theory.HashTable
import Ssdb.Theory.Runs

abbrev ScoredSet := Bytes → OrdMap Bytes Int64

namespace ScoredSet
open Keys SSDBImpl Strings
open HashTable (Admitted)

def assign (Z : ScoredSet) (n k : Bytes) (x : Option Int64) : ScoredSet :=
  Function.update Z n
    (match x with
    | none => (Z n).erase k
    | some s => (Z n).insert k s)

structure Indexed (d : Bytes → Option Bytes) (Z : ScoredSet) : Prop where
  member : ∀ n k, d (encodeZsetKey n k) = ((Z n).get k).map str
  score : ∀ n k s, d (zscoreKey n k s) = if (Z n).get k = some s then some [] else none
  admitted : ∀ n k, (Z n).get k ≠ none → Admitted n k
  typed : ∀ key, key.head? = some DataType.ZSCORE → d key ≠ none → ∃ n k s, key = zscoreKey n k s

def Sizes (d : Bytes → Option Bytes) (Z : ScoredSet) : Prop :=
  ∀ n, d (encodeZsizeKey n) = counter (Z n).size

structure Assigned (d d' : Bytes → Option Bytes) (n k : Bytes) (x : Option Int64) : Prop where
  member : d' (encodeZsetKey n k) = x.map str
  score : ∀ s, d' (zscoreKey n k s) = if x = some s then some [] else none
  frame : ∀ key, key ≠ encodeZsetKey n k → (∀ s, key ≠ zscoreKey n k s) → d' key = d key

variable {d d' : Bytes → Option Bytes} {Z : ScoredSet} {n k : Bytes}

theorem get_assign (Z : ScoredSet) (n k : Bytes) (x : Option Int64) (m l : Bytes) :
    ((Z.assign n k x) m).get l = if m = n ∧ l = k then x else (Z m).get l := by
  rcases eq_or_ne m n with rfl | hm
  · cases x with
    | none => simp [assign, OrdMap.get_erase]
    | some s => simp [assign, OrdMap.get_insert]
  · simp [assign, hm]

theorem assign_other {x : Option Int64} {m : Bytes} (h : m ≠ n) : (Z.assign n k x) m = Z m :=
  Function.update_of_ne h _ _

theorem assign_same {x : Option Int64} (h : (Z n).get k = x) : Z.assign n k x = Z := by
  funext m
  apply OrdMap.ext_get
  intro l
  rw [get_assign]
  split_ifs with hml
  · rw [hml.1, hml.2, h]
  · rfl

theorem zsetKey_eq_iff {m l : Bytes} (h : Admitted n k) :
    encodeZsetKey m l = encodeZsetKey n k ↔ m = n ∧ l = k := by
  constructor
  · intro he
    obtain ⟨h1, h2⟩ := encodeZsetKey_injective h.2.2.1 h.2.2.2 he.symm
    exact ⟨h1.symm, h2.symm⟩
  · rintro ⟨rfl, rfl⟩
    rfl

theorem zscoreKey_eq_iff {m l : Bytes} {s t : Int64} (h : Admitted n k) :
    zscoreKey m l t = zscoreKey n k s ↔ m = n ∧ l = k ∧ t = s := by
  constructor
  · intro he
    obtain ⟨h1, h2, h3⟩ := zscoreKey_injective h.2.2.1 h.2.2.2 he.symm
    exact ⟨h1.symm, h2.symm, h3.symm⟩
  · rintro ⟨rfl, rfl, rfl⟩
    rfl

theorem zsetKey_ne_zscoreKey (m l : Bytes) (s : Int64) : encodeZsetKey n k ≠ zscoreKey m l s := by
  simp [encodeZsetKey, zscoreKey, DataType.ZSET, DataType.ZSCORE, charByte]

theorem zsizeKey_ne_zsetKey (m : Bytes) : encodeZsizeKey m ≠ encodeZsetKey n k := by
  simp [encodeZsizeKey, encodeZsetKey, DataType.ZSIZE, DataType.ZSET, charByte]

theorem zsizeKey_ne_zscoreKey (m : Bytes) (s : Int64) : encodeZsizeKey m ≠ zscoreKey n k s := by
  simp [encodeZsizeKey, zscoreKey, DataType.ZSIZE, DataType.ZSCORE, charByte]

theorem zsizeKey_injective {m : Bytes} (h : encodeZsizeKey m = encodeZsizeKey n) : m = n :=
  (List.cons.inj h).2

theorem zsetKey_data (n k : Bytes) : (encodeZsetKey n k).head? ≠ some DataType.SYNCLOG := by
  simp [encodeZsetKey, DataType.ZSET, DataType.SYNCLOG, charByte]

theorem zscoreKey_data (n k : Bytes) (s : Int64) :
    (zscoreKey n k s).head? ≠ some DataType.SYNCLOG := by
  simp [zscoreKey, DataType.ZSCORE, DataType.SYNCLOG, charByte]

theorem zsizeKey_data (n : Bytes) : (encodeZsizeKey n).head? ≠ some DataType.SYNCLOG := by
  simp [encodeZsizeKey, DataType.ZSIZE, DataType.SYNCLOG, charByte]

theorem Assigned.sizeKey {x : Option Int64} (h : Assigned d d' n k x) (m : Bytes) :
    d' (encodeZsizeKey m) = d (encodeZsizeKey m) :=
  h.frame _ (zsizeKey_ne_zsetKey m) (zsizeKey_ne_zscoreKey m)

theorem Indexed.assign {x : Option Int64} (hI : Indexed d Z) (ha : Admitted n k)
    (h : Assigned d d' n k x) : Indexed d' (Z.assign n k x) where
  member m l := by
    rw [get_assign]
    split_ifs with hml
    · rw [hml.1, hml.2, h.member]
    · rw [h.frame _ (fun he => hml ((zsetKey_eq_iff ha).mp he)) (zsetKey_ne_zscoreKey n k),
        hI.member]
  score m l t := by
    rw [get_assign]
    by_cases hml : m = n ∧ l = k
    · rw [if_pos hml, hml.1, hml.2, h.score]
    · rw [if_neg hml, h.frame _ (zsetKey_ne_zscoreKey m l t).symm, hI.score]
      intro s he
      obtain ⟨h1, h2, -⟩ := (zscoreKey_eq_iff ha).mp he
      exact hml ⟨h1, h2⟩
  admitted m l hml := by
    rw [get_assign] at hml
    split_ifs at hml with heq
    · rw [heq.1, heq.2]
      exact ha
    · exact hI.admitted m l hml
  typed key hkey hd := by
    by_cases hs : ∃ s, key = zscoreKey n k s
    · obtain ⟨s, hs⟩ := hs
      exact ⟨n, k, s, hs⟩
    · rw [h.frame key (by rintro rfl; simp [encodeZsetKey, DataType.ZSET, DataType.ZSCORE,
        charByte] at hkey) (fun s he => hs ⟨s, he⟩)] at hd
      exact hI.typed key hkey hd

theorem Indexed.frame (hI : Indexed d Z) {key : Bytes} (v : Option Bytes)
    (h1 : key.head? ≠ some DataType.ZSET) (h2 : key.head? ≠ some DataType.ZSCORE) :
    Indexed (Function.update d key v) Z where
  member m l := by
    rw [Function.update_apply, if_neg, hI.member]
    rintro rfl
    exact h1 rfl
  score m l t := by
    rw [Function.update_apply, if_neg, hI.score]
    rintro rfl
    exact h2 rfl
  admitted := hI.admitted
  typed key' hkey hd := by
    rw [Function.update_apply] at hd
    split_ifs at hd with heq
    · exact absurd (heq ▸ hkey) h2
    · exact hI.typed key' hkey hd

theorem Indexed.get_none (hI : Indexed d Z) (h : ¬Admitted n k) : (Z n).get k = none := by
  by_contra hne
  exact h (hI.admitted n k hne)

theorem indexed_empty : Indexed LevelDB.empty.data (fun _ => OrdMap.empty) where
  member n k := LevelDB.data_eq (zsetKey_data n k)
  score n k s := LevelDB.data_eq (zscoreKey_data n k s)
  admitted n k h := absurd rfl h
  typed key hkey hd := by
    refine absurd ?_ hd
    simp only [LevelDB.data, dataOf]
    split_ifs <;> rfl

theorem size_le_table {db : LevelDB} (hI : Indexed db.data Z) (n : Bytes) :
    (Z n).size ≤ db.table.size := by
  have hinj : ((Z n).keys.map (encodeZsetKey n)).Nodup := by
    refine List.Nodup.map_on ?_ (Z n).keys_nodup
    intro k hk l _ he
    have hadm := hI.admitted n k (((Z n).mem_keys_iff k).mp hk)
    exact (encodeZsetKey_injective hadm.2.2.1 hadm.2.2.2 he).2
  have hsub : (Z n).keys.map (encodeZsetKey n) ⊆ db.table.keys := by
    intro key hkey
    obtain ⟨k, hk, rfl⟩ := List.mem_map.mp hkey
    have hget := ((Z n).mem_keys_iff k).mp hk
    rw [OrdMap.mem_keys_iff, ← LevelDB.data_eq (zsetKey_data n k), hI.member]
    simpa using hget
  have hlen := (List.subperm_of_subset hinj hsub).length_le
  simpa [OrdMap.keys, OrdMap.size] using hlen

section batches
variable (t : Byte)

theorem zsetRecs_onData (n k v : Bytes) : ∀ r ∈ zsetRecs n k v t, r.OnData := by
  simp [zsetRecs, Rec.OnData, zsetKey_data, encodeZscoreKey, zscoreKey_data]

theorem zdelRecs_onData (n k v : Bytes) : ∀ r ∈ zdelRecs n k v t, r.OnData := by
  simp [zdelRecs, Rec.OnData]

theorem assigned_self (hI : Indexed d Z) {x : Option Int64} (h : (Z n).get k = x) :
    Assigned d d n k x where
  member := by rw [hI.member, h]
  score s := by rw [hI.score, h]
  frame _ _ _ := rfl

theorem assigned_put {d0 : Bytes → Option Bytes} (ha : Admitted n k) (s : Int64)
    (hnone : ∀ u, d0 (zscoreKey n k u) = none)
    (hframe : ∀ key, (∀ u, key ≠ zscoreKey n k u) → d0 key = d key) :
    Assigned d ((zsetRecs n k (str s) t).foldl Rec.effect d0) n k (some s) where
  member := by simp [zsetRecs, Rec.effect]
  score u := by
    simp only [zsetRecs, List.foldl_cons, List.foldl_nil, Rec.effect, encodeZscoreKey, int64_str]
    rw [Function.update_of_ne (zsetKey_ne_zscoreKey n k u).symm, Function.update_apply, hnone]
    simp only [zscoreKey_eq_iff ha, true_and, Option.some.injEq, eq_comm]
  frame key h1 h2 := by
    simp only [zsetRecs, List.foldl_cons, List.foldl_nil, Rec.effect, encodeZscoreKey, int64_str]
    rw [Function.update_of_ne h1, Function.update_of_ne (h2 s), hframe key h2]

theorem dropped_score (hI : Indexed d Z) (ha : Admitted n k) {old : Int64}
    (h : (Z n).get k = some old) (u : Int64) :
    Function.update d (zscoreKey n k old) none (zscoreKey n k u) = none := by
  rw [Function.update_apply, hI.score, h]
  simp only [zscoreKey_eq_iff ha, true_and, Option.some.injEq]
  split_ifs with h1 h2
  · rfl
  · exact absurd h2.symm h1
  · rfl

theorem assigned_remove (hI : Indexed d Z) (ha : Admitted n k) {old : Int64}
    (h : (Z n).get k = some old) :
    Assigned d ((zdelRecs n k (str old) t).foldl Rec.effect d) n k none where
  member := by simp [zdelRecs, Rec.effect]
  score u := by
    simp only [zdelRecs, List.foldl_cons, List.foldl_nil, Rec.effect, encodeZscoreKey, int64_str]
    rw [Function.update_of_ne (zsetKey_ne_zscoreKey n k u).symm, dropped_score hI ha h]
    rfl
  frame key h1 h2 := by
    simp only [zdelRecs, List.foldl_cons, List.foldl_nil, Rec.effect, encodeZscoreKey, int64_str]
    rw [Function.update_of_ne h1, Function.update_of_ne (h2 old)]

end batches

end ScoredSet
