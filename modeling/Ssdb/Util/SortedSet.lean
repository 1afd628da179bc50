import Mathlib.Data.Prod.Lex
import Ssdb.Library.OrdMap
import Ssdb.Util.Bytes

structure Item where
  key : Bytes
  score : Int64
deriving DecidableEq

namespace Item

def rank (i : Item) : Int64 ×ₗ Bytes := toLex (i.score, i.key)

theorem rank_injective : Function.Injective rank := by
  rintro ⟨k, s⟩ ⟨l, t⟩ h
  obtain ⟨rfl, rfl⟩ := Prod.mk.inj (congrArg ofLex h)
  rfl

instance : LinearOrder Item := LinearOrder.lift' rank rank_injective

theorem lt_iff {i j : Item} : i < j ↔ i.score < j.score ∨ i.score = j.score ∧ i.key < j.key :=
  Prod.Lex.toLex_lt_toLex

theorem le_iff {i j : Item} : i ≤ j ↔ i.score < j.score ∨ i.score = j.score ∧ i.key ≤ j.key :=
  Prod.Lex.toLex_le_toLex

theorem score_mono {i j : Item} (h : i ≤ j) : i.score ≤ j.score :=
  (le_iff.mp h).elim le_of_lt fun h => h.1.le

theorem eta (i : Item) : (⟨i.key, i.score⟩ : Item) = i := rfl

end Item

/-- `existed` points from each key to its place in `sortedSet`. -/
structure SortedSet where
  existed : OrdMap Bytes Item
  sortedSet : OrdMap Item Unit
  linked : ∀ key i, existed.get key = some i ↔ i.key = key ∧ sortedSet.get i ≠ none

namespace SortedSet

def new : SortedSet := ⟨OrdMap.empty, OrdMap.empty, by simp⟩

def size (S : SortedSet) : ℕ := S.sortedSet.size

def empty (S : SortedSet) : Bool := S.size == 0

theorem linked_insert {existed : OrdMap Bytes Item} {sorted : OrdMap Item Unit} (item : Item)
    (h : ∀ key i, existed.get key = some i ↔ i.key = key ∧ sorted.get i ≠ none)
    (hnew : existed.get item.key = none) (key : Bytes) (i : Item) :
    (existed.insert item.key item).get key = some i ↔
      i.key = key ∧ (sorted.insert item ()).get i ≠ none := by
  rw [OrdMap.get_insert, OrdMap.get_insert]
  split_ifs with h1 h2 h2
  · simp [h1, h2]
  · have hnot : ¬(i.key = item.key ∧ sorted.get i ≠ none) := fun hi => by
      rw [(h item.key i).mpr hi] at hnew
      exact absurd hnew (by simp)
    simp [h1, hnot, Ne.symm h2]
  · simp [h2, Ne.symm h1, h key item]
  · exact h key i

theorem linked_erase {existed : OrdMap Bytes Item} {sorted : OrdMap Item Unit} (item : Item)
    (h : ∀ key i, existed.get key = some i ↔ i.key = key ∧ sorted.get i ≠ none)
    (hold : sorted.get item ≠ none) (key : Bytes) (i : Item) :
    (existed.erase item.key).get key = some i ↔ i.key = key ∧ (sorted.erase item).get i ≠ none := by
  have hitem := (h item.key item).mpr ⟨rfl, hold⟩
  rw [OrdMap.get_erase, OrdMap.get_erase]
  split_ifs with h1 h2 h2
  · simp
  · have hnot : ¬(i.key = item.key ∧ sorted.get i ≠ none) := fun hi => by
      rw [(h item.key i).mpr hi, Option.some.injEq] at hitem
      exact h2 hitem
    simp [h1, hnot]
  · simp [h2, Ne.symm h1]
    exact fun h3 => h1 ((h key item).mp h3).1.symm
  · exact h key i

def link (S : SortedSet) (item : Item) (h : S.existed.get item.key = none) : SortedSet :=
  ⟨S.existed.insert item.key item, S.sortedSet.insert item (), linked_insert item S.linked h⟩

def unlink (S : SortedSet) (item : Item) (h : S.sortedSet.get item ≠ none) : SortedSet :=
  ⟨S.existed.erase item.key, S.sortedSet.erase item, linked_erase item S.linked h⟩

def lookup (S : SortedSet) (key : Bytes) : Option Int64 := (S.existed.get key).map Item.score

theorem place_gone (S : SortedSet) {item : Item} (h : S.sortedSet.get item ≠ none) :
    (S.unlink item h).existed.get item.key = none := OrdMap.get_erase_self _ _

def add (S : SortedSet) (key : Bytes) (score : Int64) : Int × SortedSet :=
  match h : S.existed.get key with
  | none => (1, S.link ⟨key, score⟩ h)
  | some item =>
    have hitem := (S.linked key item).mp h
    if item.score = score then (0, S)
    else (0, (S.unlink item hitem.2).link ⟨key, score⟩ (hitem.1 ▸ S.place_gone hitem.2))

def del (S : SortedSet) (key : Bytes) : Int × SortedSet :=
  match h : S.existed.get key with
  | none => (0, S)
  | some item => (1, S.unlink item ((S.linked key item).mp h).2)

def items (S : SortedSet) : List Item := S.sortedSet.keys

def front (S : SortedSet) : Option Item := S.items.head?

def back (S : SortedSet) : Option Item := S.items.getLast?

def maxScore (S : SortedSet) : Int64 :=
  match S.back with
  | none => 0
  | some item => item.score

theorem linked_of_mem (S : SortedSet) {item : Item} (h : item ∈ S.items) :
    S.sortedSet.get item ≠ none := (S.sortedSet.mem_keys_iff item).mp h

def popFront (S : SortedSet) : Int × SortedSet :=
  match h : S.front with
  | none => (0, S)
  | some item => (1, S.unlink item (S.linked_of_mem (List.mem_of_head? h)))

def popBack (S : SortedSet) : Int × SortedSet :=
  match h : S.back with
  | none => (0, S)
  | some item => (1, S.unlink item (S.linked_of_mem (List.mem_of_getLast? h)))

variable {S : SortedSet}

theorem mem_items (i : Item) : i ∈ S.items ↔ S.lookup i.key = some i.score := by
  rw [items, OrdMap.mem_keys_iff, lookup, Option.map_eq_some_iff]
  constructor
  · intro h
    exact ⟨i, (S.linked i.key i).mpr ⟨rfl, h⟩, rfl⟩
  · rintro ⟨j, hj, hs⟩
    obtain ⟨hk, hthere⟩ := (S.linked i.key j).mp hj
    rwa [← Item.eta i, ← hk, ← hs]

theorem items_sorted (S : SortedSet) : S.items.Pairwise (· < ·) := S.sortedSet.keys_sorted

theorem items_length (S : SortedSet) : S.items.length = S.size := List.length_map _

theorem lookup_unlink (item : Item) (h : S.sortedSet.get item ≠ none) (key : Bytes) :
    (S.unlink item h).lookup key = if key = item.key then none else S.lookup key := by
  rw [lookup, unlink, OrdMap.get_erase]
  split_ifs
  · rfl
  · rfl

theorem lookup_link (item : Item) (h : S.existed.get item.key = none) (key : Bytes) :
    (S.link item h).lookup key = if key = item.key then some item.score else S.lookup key := by
  rw [lookup, link, OrdMap.get_insert]
  split_ifs
  · rfl
  · rfl

theorem lookup_of_existed {key : Bytes} {item : Item} (h : S.existed.get key = some item) :
    S.lookup key = some item.score := by rw [lookup, h, Option.map_some]

theorem lookup_add (S : SortedSet) (key : Bytes) (score : Int64) (l : Bytes) :
    (S.add key score).2.lookup l = if l = key then some score else S.lookup l := by
  rw [add]
  split
  · simp only [lookup_link]
  · rename_i item h
    have hkey := ((S.linked key item).mp h).1
    split_ifs with h1 h2 h2
    · rw [h2, lookup_of_existed h, h1]
    · rfl
    · simp [lookup_link, h2]
    · simp [lookup_link, lookup_unlink, hkey, h2]

theorem lookup_del (S : SortedSet) (key l : Bytes) :
    (S.del key).2.lookup l = if l = key then none else S.lookup l := by
  rw [del]
  split
  · rename_i h
    split_ifs with hl
    · rw [hl, lookup, h, Option.map_none]
    · rfl
  · rename_i item h
    have hkey := ((S.linked key item).mp h).1
    simp only [lookup_unlink, hkey]

theorem front_mem {i : Item} (h : S.front = some i) : S.lookup i.key = some i.score :=
  (mem_items i).mp (List.mem_of_head? h)

theorem front_least {i j : Item} (h : S.front = some i) (hj : S.lookup j.key = some j.score) :
    i ≤ j := by
  have hmem := (mem_items j).mpr hj
  have hs := S.items_sorted
  rw [front] at h
  cases hi : S.items with
  | nil => simp [hi] at h
  | cons a l =>
    rw [hi] at h hmem hs
    obtain rfl : a = i := by simpa using h
    rcases List.mem_cons.mp hmem with rfl | hmem
    · exact le_rfl
    · exact ((List.pairwise_cons.mp hs).1 j hmem).le

theorem back_mem {i : Item} (h : S.back = some i) : S.lookup i.key = some i.score :=
  (mem_items i).mp (List.mem_of_getLast? h)

theorem back_greatest {i j : Item} (h : S.back = some i) (hj : S.lookup j.key = some j.score) :
    j ≤ i := by
  have hmem := (mem_items j).mpr hj
  have hs := S.items_sorted
  rw [back, List.getLast?_eq_some_iff] at h
  obtain ⟨l, hl⟩ := h
  rw [hl] at hmem hs
  rcases List.mem_append.mp hmem with hmem | hmem
  · exact ((List.pairwise_append.mp hs).2.2 j hmem i (by simp)).le
  · exact (List.mem_singleton.mp hmem).le

theorem lookup_popFront {i : Item} (h : S.front = some i) (l : Bytes) :
    S.popFront.2.lookup l = if l = i.key then none else S.lookup l := by
  rw [popFront]
  split
  · rename_i hn
    simp [hn] at h
  · rename_i j hj
    obtain rfl : j = i := Option.some.inj (hj.symm.trans h)
    simp only [lookup_unlink]

theorem lookup_popBack {i : Item} (h : S.back = some i) (l : Bytes) :
    S.popBack.2.lookup l = if l = i.key then none else S.lookup l := by
  rw [popBack]
  split
  · rename_i hn
    simp [hn] at h
  · rename_i j hj
    obtain rfl : j = i := Option.some.inj (hj.symm.trans h)
    simp only [lookup_unlink]

theorem empty_iff : S.empty = true ↔ ∀ key, S.lookup key = none := by
  rw [empty, beq_iff_eq, ← items_length, List.length_eq_zero_iff]
  constructor
  · intro h key
    cases hl : S.lookup key with
    | none => rfl
    | some s =>
      have hmem := (mem_items (S := S) ⟨key, s⟩).mpr hl
      rw [h] at hmem
      exact absurd hmem (by simp)
  · intro h
    refine List.eq_nil_iff_forall_not_mem.mpr fun i hi => ?_
    rw [mem_items, h] at hi
    exact absurd hi (by simp)

theorem empty_false_iff : S.empty = false ↔ ∃ key score, S.lookup key = some score := by
  rw [Bool.eq_false_iff, ne_eq, empty_iff, not_forall]
  exact exists_congr fun key => Option.ne_none_iff_exists'

theorem back_of_nonempty (h : S.empty = false) : ∃ i, S.back = some i := by
  rw [back]
  cases hi : S.items.getLast? with
  | some i => exact ⟨i, rfl⟩
  | none =>
    have hsize := S.items_length
    rw [List.getLast?_eq_none_iff.mp hi] at hsize
    simp [empty, ← hsize] at h

theorem front_of_nonempty (h : S.empty = false) : ∃ i, S.front = some i := by
  rw [front]
  cases hi : S.items.head? with
  | some i => exact ⟨i, rfl⟩
  | none =>
    have hsize := S.items_length
    rw [List.head?_eq_none_iff.mp hi] at hsize
    simp [empty, ← hsize] at h

theorem nonempty_of_front {i : Item} (h : S.front = some i) : S.empty = false :=
  empty_false_iff.mpr ⟨i.key, i.score, front_mem h⟩

theorem maxScore_mem (h : S.empty = false) : ∃ key, S.lookup key = some S.maxScore := by
  obtain ⟨i, hi⟩ := back_of_nonempty h
  refine ⟨i.key, ?_⟩
  rw [maxScore, hi]
  exact back_mem hi

theorem le_maxScore {key : Bytes} {score : Int64} (h : S.lookup key = some score) :
    score ≤ S.maxScore := by
  obtain ⟨i, hi⟩ := back_of_nonempty (empty_false_iff.mpr ⟨key, score, h⟩)
  rw [maxScore, hi]
  exact Item.score_mono (back_greatest (j := ⟨key, score⟩) hi h)

theorem size_link (item : Item) (h : S.existed.get item.key = none) :
    (S.link item h).size = S.size + 1 := by
  have hnew : S.sortedSet.get item = none := by
    by_contra hold
    rw [(S.linked item.key item).mpr ⟨rfl, hold⟩] at h
    exact absurd h (by simp)
  exact (OrdMap.size_insert _ _ _).trans (if_pos hnew)

theorem size_unlink (item : Item) (h : S.sortedSet.get item ≠ none) :
    (S.unlink item h).size = S.size - 1 := (OrdMap.size_erase _ _).trans (if_neg h)

theorem size_add_le (S : SortedSet) (key : Bytes) (score : Int64) :
    (S.add key score).2.size ≤ S.size + 1 := by
  rw [add]
  split
  · simp only [size_link]
    exact le_rfl
  · split_ifs
    · exact Nat.le_succ _
    · simp only [size_link, size_unlink]
      omega

theorem size_del_le (S : SortedSet) (key : Bytes) : (S.del key).2.size ≤ S.size := by
  rw [del]
  split
  · exact le_rfl
  · simp only [size_unlink]
    omega

theorem size_popFront (S : SortedSet) : S.popFront.2.size = S.size - 1 := by
  rw [popFront]
  split
  · rename_i h
    have hlen := S.items_length
    rw [List.head?_eq_none_iff.mp h] at hlen
    simp [← hlen]
  · simp only [size_unlink]

theorem size_popBack (S : SortedSet) : S.popBack.2.size = S.size - 1 := by
  rw [popBack]
  split
  · rename_i h
    have hlen := S.items_length
    rw [List.getLast?_eq_none_iff.mp h] at hlen
    simp [← hlen]
  · simp only [size_unlink]

end SortedSet
