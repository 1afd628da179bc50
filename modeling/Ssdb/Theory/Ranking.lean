import Ssdb.Store.Regions
import Ssdb.Theory.ScoreIndex
import Ssdb.Util.SortedSet

namespace Keys
open Strings Endian

theorem scoreBytes_lt (s t : Int64) : scoreBytes s < scoreBytes t ↔ s < t := by
  have hsign : minusSign < equalSign := by decide
  rw [scoreBytes, scoreBytes, List.cons_lt_cons_iff]
  have hmem (h : s < 0 ↔ t < 0) : memory (encodeScore s) < memory (encodeScore t) ↔ s < t := by
    rw [encodeScore, encodeScore, memory_bigEndian64_lt, toUInt64_lt h]
  by_cases hs : s < 0
  · by_cases ht : t < 0
    · simp [hs, ht, hmem (by simp [hs, ht])]
    · simp [hs, ht, hsign, hs.trans_le (not_lt.mp ht)]
  · by_cases ht : t < 0
    · have h : ¬s < t := fun h => hs (h.trans ht)
      simp [hs, ht, h, hsign.not_gt, hsign.ne']
    · simp [hs, ht, hmem (by simp [hs, ht])]

def scorePrefix (n : Bytes) : Bytes := DataType.ZSCORE :: len8 n :: n

def itemBytes (i : Item) : Bytes := scoreBytes i.score ++ equalSign :: i.key

def itemKey (n : Bytes) (i : Item) : Bytes := zscoreKey n i.key i.score

theorem itemKey_eq (n : Bytes) (i : Item) : itemKey n i = scorePrefix n ++ itemBytes i := rfl

theorem itemKey_lt (n : Bytes) (i j : Item) : itemKey n i < itemKey n j ↔ i < j := by
  have hlen : (scoreBytes i.score).length = (scoreBytes j.score).length := by simp
  have hinj : scoreBytes i.score = scoreBytes j.score ↔ i.score = j.score :=
    ⟨scoreBytes_injective, congrArg scoreBytes⟩
  rw [itemKey_eq, itemKey_eq, Lexicographic.append_lt_append_iff, itemBytes, itemBytes,
    Lexicographic.append_lt_append_of_length hlen, scoreBytes_lt, hinj, Item.lt_iff]
  simp

theorem itemKey_le (n : Bytes) (i j : Item) : itemKey n i ≤ itemKey n j ↔ i ≤ j := by
  rw [← not_lt, ← not_lt, itemKey_lt]

end Keys

namespace SSDBImpl
open Keys Strings

def forwardStart (keyStart scoreStart : Bytes) : Item :=
  ⟨keyStart, int64 (if scoreStart = [] then SSDB_SCORE_MIN else scoreStart)⟩

def forwardStop (scoreEnd : Bytes) : Item :=
  ⟨[255], int64 (if scoreEnd = [] then SSDB_SCORE_MAX else scoreEnd)⟩

def backwardStart (keyStart scoreStart : Bytes) : Item :=
  if scoreStart = [] then ⟨keyStart, int64 SSDB_SCORE_MAX⟩
  else if keyStart = [] then ⟨[255], int64 scoreStart⟩
  else ⟨keyStart, int64 scoreStart⟩

def backwardStop (scoreEnd : Bytes) : Item :=
  ⟨[], int64 (if scoreEnd = [] then SSDB_SCORE_MIN else scoreEnd)⟩

variable (db : LevelDB) (n k s e : Bytes) (limit : ℕ)

theorem ziterator_forward : ziterator db n k s e limit .forward =
    .new (db.iterator (itemKey n (forwardStart k s)) (itemKey n (forwardStop e)) limit) n := by
  simp only [ziterator, forwardStart, forwardStop]
  split_ifs <;> rfl

theorem ziterator_backward : ziterator db n k s e limit .backward =
    .new (db.revIterator (itemKey n (backwardStart k s)) (itemKey n (backwardStop e)) limit) n := by
  simp only [ziterator, backwardStart, backwardStop]
  split_ifs <;> rfl

theorem ziterator_region {db db' : LevelDB}
    (h : db'.region (scorePrefix n) = db.region (scorePrefix n)) :
    (ziterator db' n k s e limit .forward).rest = (ziterator db n k s e limit .forward).rest := by
  have hpending := fun db : LevelDB => LevelDB.forward_pending db (scorePrefix n)
    (itemBytes (forwardStart k s)) (itemBytes (forwardStop e)) (List.cons_ne_nil _ _) limit
  simp only [ziterator_forward, ZIterator.rest, ZIterator.new, Iterator.items_collect, itemKey_eq,
    hpending, h]

end SSDBImpl

namespace ScoredSet
open Keys SSDBImpl Strings
open HashTable (Admitted)

def ranking (m : OrdMap Bytes Int64) : List Item :=
  (m.entries.map (fun e => (⟨e.1, e.2⟩ : Item))).insertionSort (· ≤ ·)

theorem mem_ranking (m : OrdMap Bytes Int64) (i : Item) :
    i ∈ ranking m ↔ m.get i.key = some i.score := by
  rw [ranking, List.mem_insertionSort, ← OrdMap.mem_entries_iff, List.mem_map]
  constructor
  · rintro ⟨e, he, rfl⟩
    exact he
  · intro h
    exact ⟨_, h, rfl⟩

theorem ranking_nodup (m : OrdMap Bytes Int64) : (ranking m).Nodup := by
  refine (List.perm_insertionSort _ _).nodup_iff.mpr (List.Nodup.map ?_ ?_)
  · rintro ⟨k, s⟩ ⟨l, t⟩ h
    obtain ⟨rfl, rfl⟩ := Item.mk.inj h
    rfl
  · exact m.sorted.imp fun h he => (congrArg Prod.fst he ▸ h).false

theorem ranking_sorted (m : OrdMap Bytes Int64) : (ranking m).Pairwise (· < ·) :=
  ((List.pairwise_insertionSort (· ≤ ·) _).and (ranking_nodup m)).imp fun h =>
    lt_of_le_of_ne h.1 h.2

theorem ranking_length (m : OrdMap Bytes Int64) : (ranking m).length = m.size := by
  rw [ranking, List.length_insertionSort, List.length_map, OrdMap.size]

theorem ranking_unique {l l' : List Item} (hl : l.Pairwise (· < ·)) (hl' : l'.Pairwise (· < ·))
    (h : ∀ i, i ∈ l ↔ i ∈ l') : l = l' := hl.eq_of_mem_iff hl' h

section scan
variable {db : LevelDB} {Z : ScoredSet} {n : Bytes}

theorem named_prefix {m y z : Bytes} (hn : n.length ≤ SSDB_KEY_LEN_MAX)
    (hm : m.length ≤ SSDB_KEY_LEN_MAX) (h : scorePrefix m ++ y = scorePrefix n ++ z) : m = n := by
  have hlen := (List.cons.inj (List.cons.inj h).2).1
  have happ := (List.cons.inj (List.cons.inj h).2).2
  have hval := congrArg Fin.val hlen
  rw [len8_val hn, len8_val hm] at hval
  exact (List.append_inj happ hval).1

theorem itemKey_get (hI : Indexed db.data Z) {i : Item} (h : i ∈ ranking (Z n)) :
    db.table.get (itemKey n i) = some [] := by
  have hscore := hI.score n i.key i.score
  rw [if_pos ((mem_ranking _ _).mp h)] at hscore
  exact (LevelDB.data_eq (zscoreKey_data n i.key i.score)).symm.trans hscore

theorem ranked_entries (hI : Indexed db.data Z) (hn : n.length ≤ SSDB_KEY_LEN_MAX)
    {p : Bytes × Bytes → Bool} {q : Item → Bool}
    (hwithin : ∀ e, p e = true → ∃ y, e.1 = scorePrefix n ++ y)
    (hpq : ∀ i, p (itemKey n i, []) = q i) :
    db.table.entries.filter p = ((ranking (Z n)).filter q).map (fun i => (itemKey n i, [])) := by
  apply OrdMap.sorted_ext
  · exact db.table.sorted.filter p
  · rw [List.pairwise_map]
    exact ((ranking_sorted (Z n)).filter q).imp fun h => (itemKey_lt n _ _).mpr h
  · rintro ⟨key, v⟩
    rw [List.mem_filter, OrdMap.mem_entries_iff, List.mem_map]
    constructor
    · rintro ⟨hget, hp⟩
      obtain ⟨y, hy⟩ := hwithin _ hp
      have hhead : key.head? = some DataType.ZSCORE := by rw [show key = _ from hy]; rfl
      have hdata : db.data key = some v := by
        rw [LevelDB.data_eq (by simp [hhead, DataType.ZSCORE, DataType.SYNCLOG, charByte]), hget]
      obtain ⟨m, k, s, rfl⟩ := hI.typed key hhead (by simp [hdata])
      rw [hI.score] at hdata
      split_ifs at hdata with hmem
      have ha := hI.admitted m k (by simp [hmem])
      obtain rfl : m = n := named_prefix hn ha.2.2.1 hy
      obtain rfl : [] = v := Option.some.inj hdata
      exact ⟨⟨k, s⟩, List.mem_filter.mpr ⟨(mem_ranking _ _).mpr hmem, (hpq ⟨k, s⟩) ▸ hp⟩, rfl⟩
    · rintro ⟨i, hi, he⟩
      obtain ⟨hmem, hq⟩ := List.mem_filter.mp hi
      obtain ⟨rfl, rfl⟩ := Prod.mk.inj he
      exact ⟨itemKey_get hI hmem, (hpq i).trans hq⟩

def entry (i : Item) : Bytes × Bytes := (i.key, str i.score)

theorem rest_items (hn : n.length ≤ SSDB_KEY_LEN_MAX) {it : Iterator} {l : List Item}
    (h : it.pending = l.map (fun i => (itemKey n i, []))) :
    (ZIterator.new it n).rest = l.map entry := by
  rw [ZIterator.rest, ZIterator.new, Iterator.items_collect, h]
  refine Iterator.collect_map fun i _ => ?_
  have hhead : (itemKey n i).head? = some DataType.ZSCORE := rfl
  have hdecode : decodeZscoreKey (itemKey n i) = some (n, i.key, str i.score) :=
    decode_zscore_key _ _ hn
  simp [zVerdict, hhead, hdecode, entry]

theorem within_prefix {a b : Item} {key : Bytes} (h1 : itemKey n a ≤ key)
    (h2 : key ≤ itemKey n b) : ∃ y, key = scorePrefix n ++ y :=
  Lexicographic.prefix_of_between h1 h2

theorem forward_rest (hI : Indexed db.data Z) (hn : n.length ≤ SSDB_KEY_LEN_MAX) (a b : Item)
    (limit : ℕ) :
    (ZIterator.new (db.iterator (itemKey n a) (itemKey n b) limit) n).rest =
      (((ranking (Z n)).filter (fun i => a < i ∧ i ≤ b)).take limit).map entry := by
  refine rest_items hn ?_
  rw [LevelDB.iterator_pending, List.map_take]
  refine congrArg (List.take limit) (ranked_entries hI hn (fun e he => ?_) fun i => ?_)
  · have hb := of_decide_eq_true he
    exact within_prefix hb.1.le (hb.2.resolve_left (by simp [itemKey, zscoreKey]))
  · rw [LevelDB.between, decide_eq_decide, itemKey_lt, itemKey_le]
    simp [itemKey, zscoreKey]

theorem backward_rest (hI : Indexed db.data Z) (hn : n.length ≤ SSDB_KEY_LEN_MAX) (a b : Item)
    (limit : ℕ) :
    (ZIterator.new (db.revIterator (itemKey n a) (itemKey n b) limit) n).rest =
      (((ranking (Z n)).filter (fun i => i < a ∧ b ≤ i)).reverse.take limit).map entry := by
  refine rest_items hn ?_
  rw [LevelDB.revIterator_pending, List.map_take, List.map_reverse]
  refine congrArg (fun l => List.take limit (List.reverse l))
    (ranked_entries hI hn (fun e he => ?_) fun i => ?_)
  · have hb := of_decide_eq_true he
    exact within_prefix (hb.2.resolve_left (by simp [itemKey, zscoreKey])) hb.1.le
  · rw [LevelDB.betweenDown, decide_eq_decide, itemKey_lt, itemKey_le]
    simp [itemKey, zscoreKey]

end scan

end ScoredSet
