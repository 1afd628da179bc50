import Ssdb.Theory.ScoreRanges

structure Covers (T : OrdMap Bytes Int64) (S : SortedSet) : Prop where
  stored : ∀ key t, S.lookup key = some t → T.get key = some t
  early : ∀ key t, T.get key = some t → S.lookup key = none →
    ∀ l s, S.lookup l = some s → s ≤ t

structure Window (limit : ℕ) (T : OrdMap Bytes Int64) (S : SortedSet) : Prop extends Covers T S where
  small : S.size ≤ limit

namespace Covers

variable {T : OrdMap Bytes Int64} {S : SortedSet} {key : Bytes} {t : Int64}

theorem congr {S' : SortedSet} (h : Covers T S) (hS : ∀ l, S'.lookup l = S.lookup l) :
    Covers T S' where
  stored l s hl := h.stored l s (hS l ▸ hl)
  early k u hk hout l s hl := h.early k u hk (hS k ▸ hout) l s (hS l ▸ hl)

theorem new (T : OrdMap Bytes Int64) : Covers T SortedSet.new where
  stored _ _ hl := absurd hl (by simp [SortedSet.new, SortedSet.lookup])
  early _ _ _ _ _ _ hl := absurd hl (by simp [SortedSet.new, SortedSet.lookup])

theorem add (h : Covers T S) (hne : S.empty = false) (ht : t ≤ S.maxScore) :
    Covers (T.insert key t) (S.add key t).2 where
  stored l s hl := by
    rw [SortedSet.lookup_add] at hl
    rw [OrdMap.get_insert]
    split_ifs at hl ⊢
    · exact hl
    · exact h.stored l s hl
  early k u hk hout l s hl := by
    rw [SortedSet.lookup_add] at hout hl
    rw [OrdMap.get_insert] at hk
    split_ifs at hout
    rename_i hkey
    rw [if_neg hkey] at hk
    split_ifs at hl
    · obtain ⟨m, hm⟩ := SortedSet.maxScore_mem hne
      rw [← Option.some.inj hl]
      exact ht.trans (h.early k u hk hout m _ hm)
    · exact h.early k u hk hout l s hl

theorem popBack (h : Covers T S) (hne : S.empty = false) : Covers T S.popBack.2 := by
  obtain ⟨i, hi⟩ := SortedSet.back_of_nonempty hne
  refine ⟨fun l s hl => ?_, fun k u hk hout l s hl => ?_⟩
  · rw [SortedSet.lookup_popBack hi] at hl
    split_ifs at hl
    exact h.stored l s hl
  · rw [SortedSet.lookup_popBack hi] at hout hl
    split_ifs at hl
    split_ifs at hout with hback
    · have hstored := h.stored i.key i.score (SortedSet.back_mem hi)
      rw [hback, hstored] at hk
      rw [← Option.some.inj hk]
      exact Item.score_mono (SortedSet.back_greatest (j := ⟨l, s⟩) hi hl)
    · exact h.early k u hk hout l s hl

theorem del (h : Covers T S) (ht : S.empty = false → S.maxScore ≤ t) :
    Covers (T.insert key t) (S.del key).2 where
  stored l s hl := by
    rw [SortedSet.lookup_del] at hl
    rw [OrdMap.get_insert]
    split_ifs at hl ⊢
    exact h.stored l s hl
  early k u hk hout l s hl := by
    rw [SortedSet.lookup_del] at hout hl
    rw [OrdMap.get_insert] at hk
    split_ifs at hl
    split_ifs at hk hout
    · rw [← Option.some.inj hk]
      exact (SortedSet.le_maxScore hl).trans (ht (SortedSet.empty_false_iff.mpr ⟨l, s, hl⟩))
    · exact h.early k u hk hout l s hl

theorem erase (h : Covers T S) : Covers (T.erase key) (S.del key).2 where
  stored l s hl := by
    rw [SortedSet.lookup_del] at hl
    rw [OrdMap.get_erase]
    split_ifs at hl ⊢
    exact h.stored l s hl
  early k u hk hout l s hl := by
    rw [SortedSet.lookup_del] at hout hl
    rw [OrdMap.get_erase] at hk
    split_ifs at hl hk hout
    exact h.early k u hk hout l s hl

theorem popFront (h : Covers T S) {i : Item} (hi : S.front = some i) :
    Covers (T.erase i.key) S.popFront.2 :=
  h.erase.congr fun l => by rw [SortedSet.lookup_popFront hi, SortedSet.lookup_del]

theorem front_least (h : Covers T S) {i : Item} (hi : S.front = some i) (hk : T.get key = some t) :
    i.score ≤ t := by
  have hfront := SortedSet.front_mem hi
  cases hl : S.lookup key with
  | none => exact h.early key t hk hl i.key i.score hfront
  | some s =>
    rw [h.stored key s hl] at hk
    rw [← Option.some.inj hk]
    exact Item.score_mono (SortedSet.front_least (j := ⟨key, s⟩) hi hl)

end Covers

namespace SortedSet

def addAll (S : SortedSet) (l : List Item) : SortedSet :=
  l.foldl (fun S i => (S.add i.key i.score).2) S

variable {T : OrdMap Bytes Int64} {l : List Item}

theorem size_addAll_le (S : SortedSet) (l : List Item) : (S.addAll l).size ≤ S.size + l.length := by
  induction l generalizing S with
  | nil => exact le_rfl
  | cons i l ih =>
    have hadd := S.size_add_le i.key i.score
    have hrest := ih (S.add i.key i.score).2
    rw [addAll, List.foldl_cons]
    rw [addAll] at hrest
    rw [List.length_cons]
    omega

theorem lookup_addAll (S : SortedSet) (hl : ∀ i ∈ l, T.get i.key = some i.score) (key : Bytes) :
    (S.addAll l).lookup key = if key ∈ l.map Item.key then T.get key else S.lookup key := by
  induction l generalizing S with
  | nil => rfl
  | cons i l ih =>
    have hrest := ih (S.add i.key i.score).2 fun j hj => hl j (by simp [hj])
    rw [addAll, List.foldl_cons]
    rw [addAll] at hrest
    rw [hrest, lookup_add, List.map_cons]
    by_cases hkey : key = i.key
    · rw [hkey, if_pos rfl, hl i (by simp)]
      simp
    · simp [hkey]

end SortedSet

namespace Window
open ScoredSet

variable {limit : ℕ} {T : OrdMap Bytes Int64} {S : SortedSet}

theorem taken_stored (i : Item) (hi : i ∈ (ranking T).take limit) : T.get i.key = some i.score :=
  (mem_ranking T i).mp (List.mem_of_mem_take hi)

theorem lookup_filled (hS : S.empty = true) (key : Bytes) (t : Int64) :
    (S.addAll ((ranking T).take limit)).lookup key = some t ↔
      (⟨key, t⟩ : Item) ∈ (ranking T).take limit := by
  rw [SortedSet.lookup_addAll S taken_stored, SortedSet.empty_iff.mp hS key]
  split_ifs with hkey
  · obtain ⟨i, hi, rfl⟩ := List.mem_map.mp hkey
    rw [taken_stored i hi, Option.some.injEq]
    constructor
    · rintro rfl
      exact hi
    · intro h
      exact Option.some.inj ((taken_stored i hi).symm.trans (taken_stored _ h))
  · refine ⟨fun h => absurd h (by simp), fun h => absurd (List.mem_map_of_mem h) hkey⟩

theorem fill (hS : S.empty = true) : Window limit T (S.addAll ((ranking T).take limit)) where
  stored key t hl := taken_stored ⟨key, t⟩ ((lookup_filled hS key t).mp hl)
  early key t hk hout l s hl := by
    have hlast := (lookup_filled hS l s).mp hl
    have hrank := (mem_ranking T ⟨key, t⟩).mpr hk
    have hsorted := ranking_sorted T
    rw [← List.take_append_drop limit (ranking T)] at hrank hsorted
    rcases List.mem_append.mp hrank with htaken | hleft
    · rw [(lookup_filled hS key t).mpr htaken] at hout
      exact absurd hout (by simp)
    · exact Item.score_mono ((List.pairwise_append.mp hsorted).2.2 _ hlast _ hleft).le
  small := by
    have hsize := SortedSet.size_addAll_le S ((ranking T).take limit)
    have hlen := List.length_take_le limit (ranking T)
    have hempty : S.size = 0 := by simpa [SortedSet.empty] using hS
    omega

theorem fill_empty (hS : S.empty = true) (hlimit : 0 < limit)
    (h : (S.addAll ((ranking T).take limit)).empty = true) (key : Bytes) : T.get key = none := by
  by_contra hkey
  obtain ⟨t, ht⟩ := Option.ne_none_iff_exists'.mp hkey
  have hrank := (mem_ranking T ⟨key, t⟩).mpr ht
  cases hr : ranking T with
  | nil => simp [hr] at hrank
  | cons i l =>
    obtain ⟨limit, rfl⟩ := Nat.exists_eq_succ_of_ne_zero hlimit.ne'
    have hfound : (S.addAll ((ranking T).take (limit + 1))).lookup i.key = some i.score :=
      (lookup_filled hS i.key i.score).mpr (by simp [hr])
    rw [SortedSet.empty_iff.mp h i.key] at hfound
    exact absurd hfound (by simp)

end Window
