import Ssdb.Store.LogSeqs
import Ssdb.Theory.ScoreScans
import Ssdb.Theory.Shaped

namespace ScoredSet
open Keys SSDBImpl Strings

def KeyOk (k : Bytes) : Prop := k ≠ [] ∧ k.length ≤ SSDB_KEY_LEN_MAX

def memberPrefix (n : Bytes) : Bytes := DataType.ZSET :: len8 n :: n

structure Recorded (t : OrdMap Bytes Bytes) (n : Bytes) (M : OrdMap Bytes Int64) (S : Finset Item) :
    Prop where
  member : ∀ k, t.get (encodeZsetKey n k) = (M.get k).map str
  score : ∀ i, t.get (itemKey n i) ≠ none ↔ i ∈ S
  memberForm : ∀ rest, t.get (memberPrefix n ++ rest) ≠ none → ∃ k, rest = len8 k :: k ∧ KeyOk k
  scoreForm : ∀ rest, t.get (scorePrefix n ++ rest) ≠ none →
    ∃ i : Item, rest = itemBytes i ∧ KeyOk i.key

variable {t t' : OrdMap Bytes Bytes} {n : Bytes} {M : OrdMap Bytes Int64} {S : Finset Item}
  {w : SSDBImpl} {i : Item}

theorem zsetKey_eq (n k : Bytes) : encodeZsetKey n k = memberPrefix n ++ len8 k :: k := rfl

theorem zsetKey_inj {k l : Bytes} : encodeZsetKey n k = encodeZsetKey n l ↔ k = l := by
  rw [zsetKey_eq, zsetKey_eq, List.append_cancel_left_eq, List.cons.injEq]
  constructor
  · exact And.right
  · rintro rfl
    exact ⟨rfl, rfl⟩

def memberEntry (n : Bytes) (i : Item) : Bytes × Bytes := (encodeZsetKey n i.key, str i.score)

theorem memberEntry_injective (n : Bytes) : Function.Injective (memberEntry n) := by
  rintro ⟨k, s⟩ ⟨l, u⟩ he
  obtain ⟨hkey, hscore⟩ := Prod.mk.inj he
  exact congrArg₂ Item.mk (zsetKey_inj.mp hkey) (str_injective hscore)

theorem itemKey_inj {j : Item} : itemKey n i = itemKey n j ↔ i = j := by
  rw [le_antisymm_iff, itemKey_le, itemKey_le, ← le_antisymm_iff]

namespace Recorded

theorem member_key (h : Recorded t n M S) {k : Bytes} (hk : M.get k ≠ none) : KeyOk k := by
  have hget : t.get (encodeZsetKey n k) ≠ none := by
    rw [h.member]
    simpa using hk
  obtain ⟨l, hl, hok⟩ := h.memberForm _ hget
  obtain rfl := (List.cons.inj hl).2
  exact hok

theorem score_key (h : Recorded t n M S) (hi : i ∈ S) : KeyOk i.key := by
  obtain ⟨j, hj, hok⟩ := h.scoreForm (itemBytes i) ((h.score i).mpr hi)
  obtain rfl : i = j := itemKey_inj.mp (congrArg (scorePrefix n ++ ·) hj)
  exact hok

theorem congr (h : Recorded t n M S) (hm : ∀ rest, t'.get (memberPrefix n ++ rest) =
    t.get (memberPrefix n ++ rest)) (hs : ∀ rest, t'.get (scorePrefix n ++ rest) =
    t.get (scorePrefix n ++ rest)) : Recorded t' n M S where
  member k := (hm _).trans (h.member k)
  score i := by rw [itemKey_eq, hs, ← itemKey_eq, h.score]
  memberForm rest hr := h.memberForm rest (hm rest ▸ hr)
  scoreForm rest hr := h.scoreForm rest (hs rest ▸ hr)

end Recorded

def fixMember (n : Bytes) (t : OrdMap Bytes Bytes) (i : Item) : OrdMap Bytes Bytes :=
  t.insert (encodeZsetKey n i.key) (str i.score)

def fixScore (n : Bytes) (t : OrdMap Bytes Bytes) (i : Item) : OrdMap Bytes Bytes :=
  if t.get (itemKey n i) = none then t.insert (itemKey n i) [] else t

theorem Recorded.fixMember (h : Recorded t n M S) (hi : KeyOk i.key) :
    Recorded (fixMember n t i) n (M.insert i.key i.score) S where
  member k := by
    simp only [ScoredSet.fixMember, OrdMap.get_insert, zsetKey_inj]
    split_ifs
    · rfl
    · exact h.member k
  score j := by
    rw [ScoredSet.fixMember, OrdMap.get_insert_ne]
    · exact h.score j
    · exact (zsetKey_ne_zscoreKey n j.key j.score).symm
  memberForm rest hr := by
    rw [ScoredSet.fixMember, OrdMap.get_insert] at hr
    split_ifs at hr with he
    · rw [zsetKey_eq, List.append_cancel_left_eq] at he
      exact ⟨i.key, he, hi⟩
    · exact h.memberForm rest hr
  scoreForm rest hr := by
    rw [ScoredSet.fixMember, OrdMap.get_insert_ne] at hr
    · exact h.scoreForm rest hr
    · simp [scorePrefix, encodeZsetKey, DataType.ZSCORE, DataType.ZSET, charByte]

theorem Recorded.fixScore (h : Recorded t n M S) (hi : KeyOk i.key) :
    Recorded (fixScore n t i) n M (insert i S) := by
  rw [ScoredSet.fixScore]
  split_ifs with hnone
  · constructor
    · intro k
      rw [OrdMap.get_insert_ne]
      · exact h.member k
      · exact zsetKey_ne_zscoreKey n i.key i.score
    · intro j
      simp only [OrdMap.get_insert, itemKey_inj, Finset.mem_insert, ← h.score j]
      split_ifs with he <;> simp [he]
    · intro rest hr
      rw [OrdMap.get_insert_ne] at hr
      · exact h.memberForm rest hr
      · simp [memberPrefix, itemKey, zscoreKey, DataType.ZSCORE, DataType.ZSET, charByte]
    · intro rest hr
      rw [OrdMap.get_insert] at hr
      split_ifs at hr with he
      · rw [itemKey_eq, List.append_cancel_left_eq] at he
        exact ⟨i, he, hi⟩
      · exact h.scoreForm rest hr
  · rwa [Finset.insert_eq_of_mem ((h.score i).mp hnone)]

structure Mended (f : OrdMap Bytes Bytes → Item → OrdMap Bytes Bytes) (l : List Item)
    (w w' : SSDBImpl) : Prop where
  table : w'.ldb.table = l.foldl f w.ldb.table
  faults : w'.faults = Faults.none
  sequence : w'.ldb.sequence ≤ w.ldb.sequence + l.length

theorem Mended.cons {f : OrdMap Bytes Bytes → Item → OrdMap Bytes Bytes} {l : List Item}
    {w w1 w' : SSDBImpl} (h : Mended f l w1 w') (htable : w1.ldb.table = f w.ldb.table i)
    (hsequence : w1.ldb.sequence ≤ w.ldb.sequence + 1) : Mended f (i :: l) w w' where
  table := by rw [h.table, htable, List.foldl_cons]
  faults := h.faults
  sequence := by
    have hle := h.sequence
    rw [List.length_cons]
    omega

section passes
variable (hw : w.faults = Faults.none) (hn : n.length ≤ SSDB_KEY_LEN_MAX)
include hw hn

theorem zfixScores_cons (i : Item) (v : Bytes) (es : List (Bytes × Bytes)) (size : Int64) :
    zfixScores n ((itemKey n i, v) :: es) size w =
      zfixScores n es (size + 1)
        (if w.ldb.table.get (encodeZsetKey n i.key) = some (str i.score) then w
        else { w with ldb := w.ldb.write [.put (encodeZsetKey n i.key) (str i.score)] }) := by
  have hhead : (itemKey n i).head? = some DataType.ZSCORE := rfl
  have hdecode : decodeZscoreKey (itemKey n i) = some (n, i.key, str i.score) :=
    decode_zscore_key _ _ hn
  have hget : w.faults.get = [] := by rw [hw]; rfl
  have hwrite : w.faults.write = [] := by rw [hw]; rfl
  simp only [zfixScores, hhead, hdecode, ne_eq, not_true, if_false, M.bind_apply, M.ite_apply,
    LevelDB.Get_apply _ hget, LevelDB.fetch, Binlogs.Write_apply _ hwrite, if_true]
  cases hold : w.ldb.table.get (encodeZsetKey n i.key) with
  | none => simp
  | some old => by_cases hsame : old = str i.score <;> simp [hsame]

theorem zfixScores_run {l : List Item} {es : List (Bytes × Bytes)}
    (hes : es.map Prod.fst = l.map (itemKey n)) (size : Int64) :
    (zfixScores n es size w).1 = size + Int64.ofNat l.length ∧
      Mended (fixMember n) l w (zfixScores n es size w).2 := by
  induction l generalizing es size w with
  | nil =>
    obtain rfl : es = [] := List.map_eq_nil_iff.mp hes
    exact ⟨(Int64.add_zero size).symm, rfl, hw, le_rfl⟩
  | cons i l ih =>
    obtain ⟨⟨ks, v⟩, rest, rfl, rfl, hrest⟩ := List.map_eq_cons_iff.mp hes
    have hcount : size + Int64.ofNat (i :: l).length = size + 1 + Int64.ofNat l.length := by
      rw [List.length_cons, ← Counter.ofNat_succ, Int64.add_comm (Int64.ofNat _), Int64.add_assoc]
    rw [zfixScores_cons hw hn, hcount]
    split_ifs with hsame
    · obtain ⟨hsize, hmended⟩ := ih hw hrest (size + 1)
      exact ⟨hsize, hmended.cons (OrdMap.insert_same hsame).symm (by omega)⟩
    · have hnext : { w with
          ldb := w.ldb.write [.put (encodeZsetKey n i.key) (str i.score)] }.faults = Faults.none := hw
      obtain ⟨hsize, hmended⟩ := ih hnext hrest (size + 1)
      exact ⟨hsize, hmended.cons rfl le_rfl⟩

theorem zfixKeys_cons {i : Item} (hi : KeyOk i.key) (es : List (Bytes × Bytes)) (size : Int64) :
    zfixKeys n (memberEntry n i :: es) size w =
      zfixKeys n es (size + 1)
        (if w.ldb.table.get (itemKey n i) = none then
          { w with ldb := w.ldb.write [.put (itemKey n i) []] }
        else w) := by
  have hhead : (encodeZsetKey n i.key).head? = some DataType.ZSET := rfl
  have hkey : encodeZscoreKey n i.key (str i.score) = itemKey n i := by
    rw [encodeZscoreKey, int64_str, itemKey]
  have hget : w.faults.get = [] := by rw [hw]; rfl
  have hwrite : w.faults.write = [] := by rw [hw]; rfl
  rw [memberEntry]
  simp only [zfixKeys, hhead, decode_zset_key hn hi.2, ne_eq, not_true, if_false, M.bind_apply,
    M.ite_apply, LevelDB.Get_apply _ hget, LevelDB.fetch, Binlogs.Write_apply _ hwrite, if_true, hkey]
  cases hold : w.ldb.table.get (itemKey n i) <;> simp

theorem zfixKeys_run {l : List Item} (hl : ∀ i ∈ l, KeyOk i.key) (rest : List (Bytes × Bytes))
    (size : Int64) :
    ∃ w', zfixKeys n (l.map (memberEntry n) ++ rest) size w =
        zfixKeys n rest (size + Int64.ofNat l.length) w' ∧ Mended (fixScore n) l w w' := by
  induction l generalizing size w with
  | nil => exact ⟨w, by simp, rfl, hw, le_rfl⟩
  | cons i l ih =>
    have hcount : size + Int64.ofNat (i :: l).length = size + 1 + Int64.ofNat l.length := by
      rw [List.length_cons, ← Counter.ofNat_succ, Int64.add_comm (Int64.ofNat _), Int64.add_assoc]
    have hrest := fun {w : SSDBImpl} hw => @ih w hw (fun j hj => hl j (by simp [hj])) (size + 1)
    rw [List.map_cons, List.cons_append, zfixKeys_cons hw hn (hl i (by simp)), hcount]
    split_ifs with hnone
    · have hnext : { w with ldb := w.ldb.write [.put (itemKey n i) []] }.faults = Faults.none := hw
      obtain ⟨w', hrun, hmended⟩ := hrest hnext
      exact ⟨w', hrun, hmended.cons (if_pos hnone).symm le_rfl⟩
    · obtain ⟨w', hrun, hmended⟩ := hrest hw
      exact ⟨w', hrun, hmended.cons (if_neg hnone).symm (by omega)⟩

end passes

def Blocked : List (Bytes × Bytes) → Prop
  | [] => False
  | e :: _ => e.1.head? = some DataType.ZSET ∧ decodeZsetKey e.1 = none

instance (es : List (Bytes × Bytes)) : Decidable (Blocked es) := by
  cases es with
  | nil => exact decidable_of_iff False Iff.rfl
  | cons e es => exact decidable_of_iff (e.1.head? = some DataType.ZSET ∧ decodeZsetKey e.1 = none) Iff.rfl

theorem prefixed_decode {key k : Bytes} (hhead : key.head? = some DataType.ZSET)
    (h : decodeZsetKey key = some (n, k)) : memberPrefix n <+: key := by
  obtain ⟨rest, rfl⟩ := List.head?_eq_some_iff.mp hhead
  cases rest with
  | nil => simp [decodeZsetKey, Decoder.skip, Decoder.read8Data] at h
  | cons c rest =>
    rw [decodeZsetKey, skip_cons, Option.bind_eq_bind, Option.bind_some, Decoder.read8Data] at h
    split_ifs at h with hlt
    · simp at h
    · simp only [Option.bind_eq_bind, Option.bind_some] at h
      obtain ⟨p, -, hname⟩ := Option.bind_eq_some_iff.mp h
      obtain ⟨rfl, -⟩ := Prod.mk.inj (Option.some.inj hname)
      have hlen : len8 (rest.take c.val) = c := by
        rw [len8, List.length_take_of_le (not_lt.mp hlt)]
        exact Fin.ofNat_val_eq_self c
      refine ⟨rest.drop c.val, ?_⟩
      rw [memberPrefix, hlen, List.cons_append, List.cons_append, List.take_append_drop]

theorem zfixKeys_foreign {es : List (Bytes × Bytes)} (hes : ∀ e ∈ es, ¬memberPrefix n <+: e.1)
    (size : Int64) : zfixKeys n es size w = (if Blocked es then -1 else size, w) := by
  cases es with
  | nil => simp [zfixKeys, Blocked, M.pure_apply]
  | cons e es =>
    obtain ⟨key, v⟩ := e
    have hnot := hes (key, v) (by simp)
    have hblocked : Blocked ((key, v) :: es) ↔
        key.head? = some DataType.ZSET ∧ decodeZsetKey key = none := Iff.rfl
    rw [zfixKeys, M.ite_apply]
    simp only [hblocked]
    split_ifs with hhead hblocked hblocked
    · exact absurd hblocked.1 hhead
    · rfl
    · rw [hblocked.2]
      rfl
    · have hhead := not_not.mp hhead
      cases hd : decodeZsetKey key with
      | none => exact absurd ⟨hhead, hd⟩ hblocked
      | some p =>
        obtain ⟨m, k⟩ := p
        have hne : n ≠ m := fun he => hnot (prefixed_decode hhead (he ▸ hd))
        simp only [M.ite_apply, if_pos hne, M.pure_apply]

def visible (S : Finset Item) : List Item := (S.filter (· ≤ lastKey Int64.maxValue)).sort

theorem mem_visible : i ∈ visible S ↔ i ∈ S ∧ i ≤ lastKey Int64.maxValue := by
  rw [visible, Finset.mem_sort, Finset.mem_filter]

def foreign (t : OrdMap Bytes Bytes) (n : Bytes) : List (Bytes × Bytes) :=
  (t.entries.filter (LevelDB.between (encodeZsetKey n []) (encodeZsetKey (n ++ [255]) []))).filter
    (fun e => !decide (memberPrefix n <+: e.1))

variable {db : LevelDB}

theorem scores_met (h : Recorded db.table n M S) {limit : ℕ} (hlimit : db.table.size ≤ limit) :
    (rawEntries (db.iterator (encodeZscoreKey n [] SSDB_SCORE_MIN)
      (encodeZscoreKey n [255] SSDB_SCORE_MAX) limit)).map Prod.fst =
      (visible S).map (itemKey n) := by
  have hlen := (List.length_filter_le (LevelDB.between (itemKey n ⟨[], Int64.minValue⟩)
    (itemKey n ⟨[255], Int64.maxValue⟩)) db.table.entries).trans hlimit
  rw [rawEntries_pending, LevelDB.iterator_pending, minKey, maxKey, List.take_of_length_le hlen]
  refine List.Pairwise.eq_of_mem_iff (r := (· < ·)) ?_ ?_ fun key => ?_
  · exact List.pairwise_map.mpr (db.table.sorted.filter _)
  · rw [List.pairwise_map]
    exact (Finset.sortedLT_sort _).pairwise.imp fun hlt => (itemKey_lt n _ _).mpr hlt
  · simp only [List.mem_map, List.mem_filter, mem_visible]
    constructor
    · rintro ⟨⟨key, v⟩, ⟨he, hb⟩, rfl⟩
      obtain ⟨hlow, hhigh⟩ := of_decide_eq_true hb
      have hle := hhigh.resolve_left (by simp [itemKey, zscoreKey])
      obtain ⟨y, rfl⟩ := within_prefix hlow.le hle
      have hget := (OrdMap.mem_entries_iff _ _ _).mp he
      obtain ⟨i, rfl, -⟩ := h.scoreForm y (by simp [hget])
      refine ⟨i, ⟨(h.score i).mp ?_, (itemKey_le n _ _).mp hle⟩, rfl⟩
      rw [itemKey_eq, hget]
      simp
    · rintro ⟨i, ⟨hi, hle⟩, rfl⟩
      obtain ⟨v, hv⟩ := Option.ne_none_iff_exists'.mp ((h.score i).mpr hi)
      refine ⟨(itemKey n i, v), ⟨(OrdMap.mem_entries_iff _ _ _).mpr hv, decide_eq_true ?_⟩, rfl⟩
      exact ⟨(itemKey_lt n _ _).mpr (above_min (h.score_key hi).1), .inr ((itemKey_le n _ _).mpr hle)⟩

theorem zsetKey_between {k : Bytes} (hk : KeyOk k) (hn : n.length < SSDB_KEY_LEN_MAX) (v : Bytes) :
    LevelDB.between (encodeZsetKey n []) (encodeZsetKey (n ++ [255]) []) (encodeZsetKey n k, v) =
      true := by
  refine decide_eq_true ⟨?_, .inr (le_of_lt ?_)⟩
  · rw [zsetKey_eq, zsetKey_eq, Lexicographic.append_lt_append_iff, List.cons_lt_cons_iff]
    left
    rw [Fin.lt_def, len8_val hk.2]
    exact List.length_pos_iff.mpr hk.1
  · have hlong : (n ++ [255]).length ≤ SSDB_KEY_LEN_MAX := by
      rw [List.length_append]
      exact hn
    rw [encodeZsetKey, encodeZsetKey, List.cons_lt_cons_iff, List.cons_lt_cons_iff]
    refine .inr ⟨rfl, .inl ?_⟩
    rw [Fin.lt_def, len8_val hn.le, len8_val hlong, List.length_append]
    exact Nat.lt_succ_self _

theorem members_met (h : Recorded db.table n M S) (hn : n.length < SSDB_KEY_LEN_MAX)
    {limit : ℕ} (hlimit : db.table.size ≤ limit) :
    ∃ l : List Item, rawEntries (db.iterator (encodeZsetKey n []) (encodeZsetKey (n ++ [255]) [])
        limit) = l.map (memberEntry n) ++ foreign db.table n ∧
      l.Perm (ranking M) := by
  have hlen := (List.length_filter_le (LevelDB.between (encodeZsetKey n [])
    (encodeZsetKey (n ++ [255]) [])) db.table.entries).trans hlimit
  rw [rawEntries_pending, LevelDB.iterator_pending, List.take_of_length_le hlen]
  generalize hes : db.table.entries.filter (LevelDB.between (encodeZsetKey n [])
    (encodeZsetKey (n ++ [255]) [])) = es
  have hsorted : es.Pairwise (fun p q => p.1 < q.1) := hes ▸ db.table.sorted.filter _
  have hsplit := Ordered.filter_split (p := fun e => decide (memberPrefix n <+: e.1)) hsorted
    fun x hx y _ hxy hy => by
      rw [← hes] at hx
      obtain ⟨k, hk⟩ := of_decide_eq_true hy
      have hlow := (of_decide_eq_true (List.mem_filter.mp hx).2).1.le
      rw [zsetKey_eq] at hlow
      obtain ⟨y', hy'⟩ := Lexicographic.prefix_of_between hlow (hk ▸ hxy.le)
      exact decide_eq_true ⟨y', hy'.symm⟩
  have hown : ∀ e ∈ es.filter (fun e => decide (memberPrefix n <+: e.1)),
      e ∈ Set.range (memberEntry n) := by
    rintro ⟨key, v⟩ he
    obtain ⟨he, hprefix⟩ := List.mem_filter.mp he
    obtain ⟨rest, rfl⟩ := of_decide_eq_true hprefix
    rw [← hes] at he
    have hget := (OrdMap.mem_entries_iff _ _ _).mp (List.mem_filter.mp he).1
    obtain ⟨k, rfl, -⟩ := h.memberForm rest (by simp [hget])
    have hscore := (h.member k).symm.trans hget
    obtain ⟨s, -, rfl⟩ := Option.map_eq_some_iff.mp hscore
    exact ⟨⟨k, s⟩, rfl⟩
  obtain ⟨l, hl⟩ : es.filter (fun e => decide (memberPrefix n <+: e.1)) ∈
      Set.range (List.map (memberEntry n)) := by
    rw [Set.range_list_map]
    exact hown
  have hmem (i : Item) : i ∈ l ↔ M.get i.key = some i.score := by
    rw [← List.mem_map_of_injective (memberEntry_injective n), hl, List.mem_filter, ← hes,
      List.mem_filter]
    constructor
    · rintro ⟨⟨he, -⟩, -⟩
      have hget := (OrdMap.mem_entries_iff _ _ _).mp he
      obtain ⟨s, hs, hstr⟩ := Option.map_eq_some_iff.mp ((h.member i.key).symm.trans hget)
      rw [hs, str_injective hstr]
    · intro hi
      have hget : db.table.get (encodeZsetKey n i.key) = some (str i.score) := by rw [h.member, hi]; rfl
      refine ⟨⟨(OrdMap.mem_entries_iff _ _ _).mpr hget, zsetKey_between ?_ hn _⟩, ?_⟩
      · exact h.member_key (by simp [hi])
      · exact decide_eq_true (List.prefix_append _ _)
  have hnodup : l.Nodup := by
    refine List.Nodup.of_map (memberEntry n) ?_
    rw [hl]
    exact (hsorted.filter _).imp fun hlt he => (congrArg Prod.fst he ▸ hlt).false
  refine ⟨l, ?_, (List.perm_ext_iff_of_nodup hnodup (ranking_nodup M)).mpr fun i => ?_⟩
  · rw [hl, foreign, hes]
    exact hsplit
  · rw [hmem, mem_ranking]

structure Resized (n : Bytes) (size : Int64) (w w' : SSDBImpl) : Prop where
  count : w'.ldb.readCount (encodeZsizeKey n) = size
  same : w.ldb.readCount (encodeZsizeKey n) = size → w'.ldb.table = w.ldb.table
  record : w.ldb.readCount (encodeZsizeKey n) ≠ size → w'.ldb.table.get (encodeZsizeKey n) =
    if size = 0 then none else some (Endian.memory size.toUInt64)
  others : ∀ key, key ≠ encodeZsizeKey n → w'.ldb.table.get key = w.ldb.table.get key
  faults : w'.faults = Faults.none
  sequence : w'.ldb.sequence ≤ w.ldb.sequence + 1

theorem readCount_nonneg (db : LevelDB) (sizeKey : Bytes) : 0 ≤ db.readCount sizeKey := by
  rw [LevelDB.readCount]
  split
  · exact le_rfl
  · split_ifs with h1 h2
    · exact le_rfl
    · exact le_rfl
    · exact not_lt.mp h2

theorem readCount_none {sizeKey : Bytes} (h : db.table.get sizeKey = none) :
    db.readCount sizeKey = 0 := by rw [LevelDB.readCount, h]

theorem readCount_memory {sizeKey : Bytes} {size : Int64} (hsize : 0 ≤ size)
    (h : db.table.get sizeKey = some (Endian.memory size.toUInt64)) : db.readCount sizeKey = size := by
  rw [LevelDB.readCount, h]
  simp [hsize]

theorem zfixSize_failed (w : SSDBImpl) : zfixSize n (-1) w = (-1, w) := rfl

theorem zfixSize_run (hw : w.faults = Faults.none) {size : Int64} (hsize : 0 ≤ size) :
    (zfixSize n size w).1 = size ∧ Resized n size w (zfixSize n size w).2 := by
  have hget : w.faults.get = [] := by rw [hw]; rfl
  have hwrite : w.faults.write = [] := by rw [hw]; rfl
  have hne (v : Int64) (h : 0 ≤ v) : v ≠ -1 := by
    rintro rfl
    exact absurd h (by decide)
  have hold := hne _ (readCount_nonneg w.ldb (encodeZsizeKey n))
  rw [zfixSize, M.ite_apply, if_neg (hne size hsize), M.bind_apply, zsize, getCount_apply _ hget]
  simp only [M.ite_apply, if_neg hold, M.bind_apply]
  split_ifs with hdiff h0
  · rw [Binlogs.Write_apply _ hwrite]
    refine ⟨rfl, ?_, fun h => absurd h hdiff, fun _ => ?_, fun key hkey => ?_, hw, le_rfl⟩
    · subst h0
      exact readCount_none (OrdMap.get_erase_self _ _)
    · rw [if_pos h0]
      exact OrdMap.get_erase_self _ _
    · exact OrdMap.get_erase_ne _ hkey
  · rw [Binlogs.Write_apply _ hwrite]
    refine ⟨rfl, ?_, fun h => absurd h hdiff, fun _ => ?_, fun key hkey => ?_, hw, le_rfl⟩
    · exact readCount_memory hsize (OrdMap.get_insert_self _ _ _)
    · rw [if_neg h0]
      exact OrdMap.get_insert_self _ _ _
    · exact OrdMap.get_insert_ne _ _ hkey
  · have hsame := not_not.mp hdiff
    exact ⟨rfl, hsame, fun _ => rfl, fun h => absurd hsame h, fun _ _ => rfl, hw, Nat.le_succ _⟩

def merged (M : OrdMap Bytes Int64) (S : Finset Item) : OrdMap Bytes Int64 :=
  (visible S).foldl (fun M i => M.insert i.key i.score) M

theorem foldl_kept {f : OrdMap Bytes Bytes → Item → OrdMap Bytes Bytes} {key : Bytes}
    (hf : ∀ t i, (f t i).get key = t.get key) (l : List Item) (t : OrdMap Bytes Bytes) :
    (l.foldl f t).get key = t.get key := by
  induction l generalizing t with
  | nil => rfl
  | cons i l ih => exact (ih _).trans (hf t i)

theorem foreign_congr (h : ∀ key, key.head? = some DataType.ZSET → ¬memberPrefix n <+: key →
    t'.get key = t.get key) : foreign t' n = foreign t n := by
  have hkept : ∀ e, LevelDB.between (encodeZsetKey n []) (encodeZsetKey (n ++ [255]) []) e = true →
      (!decide (memberPrefix n <+: e.1)) = true → t'.get e.1 = t.get e.1 := by
    intro e hb hnot
    obtain ⟨hlow, hhigh⟩ := of_decide_eq_true hb
    have hle := hhigh.resolve_left (by simp [encodeZsetKey])
    obtain ⟨y, hy⟩ := Lexicographic.prefix_of_between (p := [DataType.ZSET]) hlow.le hle
    exact h e.1 (by rw [hy]; rfl) (by simpa using hnot)
  refine OrdMap.sorted_ext ((t'.sorted.filter _).filter _) ((t.sorted.filter _).filter _) ?_
  rintro ⟨key, v⟩
  simp only [foreign, List.mem_filter, OrdMap.mem_entries_iff]
  refine and_congr_left fun hnot => and_congr_left fun hb => ?_
  rw [hkept (key, v) hb hnot]

theorem Recorded.fixMembers (h : Recorded t n M S) {l : List Item} (hl : ∀ i ∈ l, KeyOk i.key) :
    Recorded (l.foldl (ScoredSet.fixMember n) t) n
      (l.foldl (fun M i => M.insert i.key i.score) M) S := by
  induction l generalizing t M with
  | nil => exact h
  | cons i l ih => exact ih (h.fixMember (hl i (by simp))) fun j hj => hl j (by simp [hj])

theorem Recorded.fixScores (h : Recorded t n M S) {l : List Item} (hl : ∀ i ∈ l, KeyOk i.key) :
    Recorded (l.foldl (ScoredSet.fixScore n) t) n M (S ∪ l.toFinset) := by
  induction l generalizing t S with
  | nil => simpa using h
  | cons i l ih =>
    have hrest := ih (h.fixScore (hl i (by simp))) fun j hj => hl j (by simp [hj])
    rwa [Finset.insert_union, ← Finset.union_insert, ← List.toFinset_cons] at hrest

theorem Resized.recorded {w' : SSDBImpl} {size : Int64} (hr : Resized n size w w')
    (h : Recorded w.ldb.table n M S) : Recorded w'.ldb.table n M S :=
  h.congr (fun rest => hr.others _ (by simp [memberPrefix, encodeZsizeKey, DataType.ZSET,
    DataType.ZSIZE, charByte])) fun rest => hr.others _ (by simp [scorePrefix, encodeZsizeKey,
    DataType.ZSCORE, DataType.ZSIZE, charByte])

theorem Resized.congr {w' w2 : SSDBImpl} {size : Int64} (h : Resized n size w w')
    (hldb : w2.ldb = w'.ldb) (hfaults : w2.faults = w'.faults) : Resized n size w w2 where
  count := hldb ▸ h.count
  same := hldb ▸ h.same
  record := hldb ▸ h.record
  others := hldb ▸ h.others
  faults := hfaults.trans h.faults
  sequence := hldb ▸ h.sequence

theorem Resized.foreign {w' : SSDBImpl} {size : Int64} (hr : Resized n size w w') :
    foreign w'.ldb.table n = foreign w.ldb.table n :=
  foreign_congr fun key hhead _ => hr.others key (by
    rintro rfl
    simp [encodeZsizeKey, DataType.ZSET, DataType.ZSIZE, charByte] at hhead)

theorem Mended.foreign_members {l : List Item} {w' : SSDBImpl} (h : Mended (fixMember n) l w w') :
    foreign w'.ldb.table n = foreign w.ldb.table n := by
  rw [h.table]
  refine foreign_congr fun key _ hnot => foldl_kept (fun t i => ?_) l _
  refine OrdMap.get_insert_ne _ _ ?_
  rintro rfl
  exact hnot (List.prefix_append _ _)

theorem Mended.foreign_scores {l : List Item} {w' : SSDBImpl} (h : Mended (fixScore n) l w w') :
    foreign w'.ldb.table n = foreign w.ldb.table n := by
  rw [h.table]
  refine foreign_congr fun key hhead _ => foldl_kept (fun t i => ?_) l _
  rw [fixScore]
  split_ifs
  · refine OrdMap.get_insert_ne _ _ ?_
    rintro rfl
    simp [itemKey, zscoreKey, DataType.ZSET, DataType.ZSCORE, charByte] at hhead
  · rfl

theorem ofNat_nonneg {c : ℕ} (hc : c < 2 ^ 63) : 0 ≤ Int64.ofNat c := by
  rw [Int64.le_iff_toInt_le, Counter.ofNat_toInt hc, Int64.toInt_zero]
  exact Int.natCast_nonneg c

theorem ofNat_ne_failed {c : ℕ} (hc : c < 2 ^ 63) : Int64.ofNat c ≠ -1 := fun he => by
  have hle := ofNat_nonneg hc
  rw [he] at hle
  exact absurd hle (by decide)

theorem rawEntries_length (db : LevelDB) (start stop : Bytes) (limit : ℕ) :
    (rawEntries (db.iterator start stop limit)).length ≤ db.table.size := by
  rw [rawEntries_pending, LevelDB.iterator_pending]
  exact (List.length_take_le' _ _).trans (List.length_filter_le _ _)

def firstPass (n : Bytes) (w : SSDBImpl) : Int64 × SSDBImpl :=
  let s := zfixScores n (rawEntries (w.ldb.iterator (encodeZscoreKey n [] SSDB_SCORE_MIN)
    (encodeZscoreKey n [255] SSDB_SCORE_MAX) UINT64_MAX.toNat)) 0 w
  zfixSize n s.1 s.2

def secondPass (n : Bytes) (w : SSDBImpl) : Int64 × SSDBImpl :=
  let s := zfixKeys n (rawEntries (w.ldb.iterator (encodeZsetKey n [])
    (encodeZsetKey (n ++ [255]) []) UINT64_MAX.toNat)) 0 w
  zfixSize n s.1 s.2

theorem zfix_passes (n : Bytes) (w : SSDBImpl) : zfix n w =
    let s := firstPass n { w with binlogs := w.binlogs.begin }
    let s' := if s.1 = -1 then (-1, s.2) else secondPass n s.2
    (s'.1, { s'.2 with binlogs := s'.2.binlogs.rollback }) := by
  have hfirst (w : SSDBImpl) : (do
      let size ← zfixScores n (rawEntries (w.ldb.iterator (encodeZscoreKey n [] SSDB_SCORE_MIN)
        (encodeZscoreKey n [255] SSDB_SCORE_MAX) UINT64_MAX.toNat)) 0
      zfixSize n size : M Int64) w = firstPass n w := rfl
  rw [zfix, Binlogs.transaction, M.bind_apply, M.get_apply, ← bind_assoc, M.bind_apply, hfirst]
  generalize firstPass n _ = s
  simp only [M.ite_apply, M.pure_apply, M.bind_apply, M.get_apply]
  split_ifs
  · rfl
  · rfl

theorem firstPass_run (h : Recorded w.ldb.table n M S) (hw : w.faults = Faults.none)
    (hn : n.length ≤ SSDB_KEY_LEN_MAX) (hseq : w.ldb.sequence < 2 ^ 60) :
    ∃ w1, (firstPass n w).1 = Int64.ofNat (visible S).length ∧
      Mended (fixMember n) (visible S) w w1 ∧
      Resized n (Int64.ofNat (visible S).length) w1 (firstPass n w).2 ∧
      (visible S).length ≤ w.ldb.sequence := by
  have hmax : UINT64_MAX.toNat = 2 ^ 64 - 1 := by decide
  have hsize := w.ldb.size_le
  have hlimit : w.ldb.table.size ≤ UINT64_MAX.toNat := by omega
  have hmet := scores_met h hlimit
  have hvisible : (visible S).length ≤ w.ldb.table.size := by
    rw [← List.length_map (itemKey n), ← hmet, List.length_map]
    exact rawEntries_length _ _ _ _
  obtain ⟨hcount, hmembers⟩ := zfixScores_run hw hn hmet 0
  rw [Int64.zero_add] at hcount
  obtain ⟨hret, hresized⟩ := zfixSize_run (n := n) hmembers.faults
    (ofNat_nonneg (by omega : (visible S).length < 2 ^ 63))
  rw [← hcount] at hret hresized
  exact ⟨_, hret.trans hcount, hmembers, hcount ▸ hresized, by omega⟩

theorem secondPass_run (h : Recorded w.ldb.table n M S) (hw : w.faults = Faults.none)
    (hn : n.length < SSDB_KEY_LEN_MAX) (hseq : w.ldb.sequence < 2 ^ 62) :
    if Blocked (foreign w.ldb.table n) then (secondPass n w).1 = -1
    else ∃ l w1, l.Perm (ranking M) ∧ (secondPass n w).1 = Int64.ofNat l.length ∧
      Mended (fixScore n) l w w1 ∧ Resized n (Int64.ofNat l.length) w1 (secondPass n w).2 ∧
      l.length ≤ w.ldb.sequence := by
  have hmax : UINT64_MAX.toNat = 2 ^ 64 - 1 := by decide
  have hsize := w.ldb.size_le
  have hlimit : w.ldb.table.size ≤ UINT64_MAX.toNat := by omega
  obtain ⟨l, hmet, hperm⟩ := members_met h hn hlimit
  have hkeys : ∀ i ∈ l, KeyOk i.key := fun i hi =>
    h.member_key (by simp [(mem_ranking M i).mp (hperm.mem_iff.mp hi)])
  have hlen : l.length ≤ w.ldb.table.size := by
    have hall := rawEntries_length w.ldb (encodeZsetKey n []) (encodeZsetKey (n ++ [255]) [])
      UINT64_MAX.toNat
    rw [hmet, List.length_append, List.length_map] at hall
    omega
  obtain ⟨w1, hrun, hmended⟩ := zfixKeys_run hw hn.le hkeys (foreign w.ldb.table n) 0
  have hnot : ∀ e ∈ foreign w.ldb.table n, ¬memberPrefix n <+: e.1 := fun e he => by
    simpa using (List.mem_filter.mp he).2
  rw [← hmet, zfixKeys_foreign hnot, Int64.zero_add] at hrun
  split_ifs with hblocked
  · rw [secondPass, hrun, if_pos hblocked, zfixSize_failed]
  · rw [if_neg hblocked] at hrun
    obtain ⟨hret, hresized⟩ := zfixSize_run (n := n) hmended.faults
      (ofNat_nonneg (by omega : l.length < 2 ^ 63))
    rw [secondPass, hrun]
    exact ⟨l, w1, hperm, hret, hmended, hresized, by omega⟩

structure Passes (n : Bytes) (M : OrdMap Bytes Int64) (S : Finset Item) (w w' : SSDBImpl)
    (l : List Item) : Prop where
  items : l.Perm (ranking (merged M S))
  states : ∃ w1 w2 w3, Mended (fixMember n) (visible S) w w1 ∧
    Resized n (Int64.ofNat (visible S).length) w1 w2 ∧ Mended (fixScore n) l w2 w3 ∧
    Resized n (Int64.ofNat l.length) w3 w'
  bound : w'.ldb.sequence ≤ 4 * w.ldb.sequence + 4

theorem visible_keys (h : Recorded t n M S) : ∀ i ∈ visible S, KeyOk i.key := fun _ hi =>
  h.score_key (mem_visible.mp hi).1

theorem zfix_second (h : Recorded w.ldb.table n M S) (hw : w.faults = Faults.none)
    (hn : n.length ≤ SSDB_KEY_LEN_MAX) (hseq : w.ldb.sequence < 2 ^ 60) :
    ∃ w1 w2, Mended (fixMember n) (visible S) w w1 ∧
      Resized n (Int64.ofNat (visible S).length) w1 w2 ∧ (visible S).length ≤ w.ldb.sequence ∧
      (zfix n w).1 = (secondPass n w2).1 ∧ (zfix n w).2.ldb = (secondPass n w2).2.ldb ∧
      (zfix n w).2.faults = (secondPass n w2).2.faults := by
  generalize hw0 : ({ w with binlogs := w.binlogs.begin } : SSDBImpl) = w0
  have hldb : w0.ldb = w.ldb := by rw [← hw0]
  have hfaults : w0.faults = Faults.none := by rw [← hw0]; exact hw
  obtain ⟨w1, hret, hmembers, hfirst, hvisible⟩ :=
    firstPass_run (hldb ▸ h) hfaults hn (by rw [hldb]; exact hseq)
  have hrun := zfix_passes n w
  rw [hw0] at hrun
  generalize firstPass n w0 = s at hret hfirst hrun
  obtain ⟨r, w2⟩ := s
  obtain rfl : r = Int64.ofNat (visible S).length := hret
  rw [hldb] at hvisible
  simp only [if_neg (ofNat_ne_failed (by omega : (visible S).length < 2 ^ 63))] at hrun
  have hmembers : Mended (fixMember n) (visible S) w w1 :=
    ⟨hldb ▸ hmembers.table, hmembers.faults, hldb ▸ hmembers.sequence⟩
  exact ⟨w1, w2, hmembers, hfirst, hvisible, by rw [hrun], by rw [hrun], by rw [hrun]⟩

theorem zfix_run (h : Recorded w.ldb.table n M S) (hw : w.faults = Faults.none)
    (hn : n.length < SSDB_KEY_LEN_MAX) (hseq : w.ldb.sequence < 2 ^ 60) :
    if Blocked (foreign w.ldb.table n) then (zfix n w).1 = -1
    else ∃ l, (zfix n w).1 = Int64.ofNat l.length ∧ l.length < 2 ^ 62 ∧
      Passes n M S w (zfix n w).2 l := by
  obtain ⟨w1, w2, hmembers, hfirst, hvisible, hret, hldb, hfaults⟩ := zfix_second h hw hn.le hseq
  have hrecorded : Recorded w2.ldb.table n (merged M S) S := by
    refine hfirst.recorded ?_
    rw [hmembers.table]
    exact h.fixMembers (visible_keys h)
  have hforeign : foreign w2.ldb.table n = foreign w.ldb.table n :=
    hfirst.foreign.trans hmembers.foreign_members
  have hseq1 := hmembers.sequence
  have hseq2 := hfirst.sequence
  have hsecond := secondPass_run hrecorded hfirst.faults hn (by omega)
  rw [hforeign] at hsecond
  rw [hret]
  generalize (zfix n w).2 = w' at hldb hfaults ⊢
  generalize secondPass n w2 = s at hsecond hldb hfaults
  split_ifs at hsecond ⊢ with hblocked
  · exact hsecond
  · obtain ⟨l, w3, hperm, hret, hscores, hsize, hlen⟩ := hsecond
    have hseq3 := hscores.sequence
    have hseq4 := hsize.sequence
    refine ⟨l, hret, by omega, hperm, ⟨w1, w2, w3, hmembers, hfirst, hscores, ?_⟩, ?_⟩
    · exact hsize.congr hldb hfaults
    · rw [hldb]
      exact hseq4.trans (by omega)

end ScoredSet
