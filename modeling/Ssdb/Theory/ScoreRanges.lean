import Ssdb.Library.Ordered
import Ssdb.Theory.Ranking

namespace ScoredSet
open Keys SSDBImpl Strings

variable {w : SSDBImpl} {Z : ScoredSet} {n : Bytes} {l : List Item}

def Lists (w : SSDBImpl) (name : Bytes) (l : List Item) : Prop :=
  l.Pairwise (· < ·) ∧ ∀ i, i ∈ l ↔ (zget name i.key w).1 = (1, some (str i.score))

theorem zget_member (hI : Indexed w.ldb.data Z) (hget : w.faults.get = []) (i : Item) :
    (zget n i.key w).1 = (1, some (str i.score)) ↔ i ∈ ranking (Z n) := by
  rw [mem_ranking, zget_reply hI hget]
  cases (Z n).get i.key with
  | none => simp
  | some s => simp [str_inj]

theorem lists_ranking (hI : Indexed w.ldb.data Z) (hget : w.faults.get = []) (n : Bytes) :
    Lists w n (ranking (Z n)) :=
  ⟨ranking_sorted _, fun i => (zget_member hI hget i).symm⟩

theorem lists_unique (hI : Indexed w.ldb.data Z) (hget : w.faults.get = []) (h : Lists w n l) :
    l = ranking (Z n) :=
  ranking_unique h.1 (ranking_sorted _) fun i => (h.2 i).trans (zget_member hI hget i)

theorem entry_injective : Function.Injective entry := by
  rintro ⟨k, s⟩ ⟨m, t⟩ h
  obtain ⟨hk, hst⟩ := Prod.mk.inj h
  exact congrArg₂ Item.mk hk (str_injective hst)

theorem key_injective {i j : Item} {m : OrdMap Bytes Int64} (hi : i ∈ ranking m)
    (hj : j ∈ ranking m) (h : i.key = j.key) : i = j := by
  rw [mem_ranking] at hi hj
  rw [h, hj, Option.some.injEq] at hi
  rw [← Item.eta i, h, ← hi]

theorem ranking_named (hI : Indexed w.ldb.data Z) {i : Item} (hi : i ∈ ranking (Z n)) :
    HashTable.Admitted n i.key := hI.admitted n i.key (by simp [(mem_ranking _ _).mp hi])

theorem rankIn_middle {a b : List Item} {i : Item} (h : ∀ j ∈ a, j.key ≠ i.key) (c : ℕ) :
    rankIn i.key ((a ++ i :: b).map entry) c = c + a.length := by
  induction a generalizing c with
  | nil => simp [rankIn, entry]
  | cons j a ih =>
    have hj : i.key ≠ (entry j).1 := (h j (by simp)).symm
    rw [List.cons_append, List.map_cons, rankIn, if_neg hj,
      ih (fun j' h' => h j' (by simp [h']))]
    push_cast [List.length_cons]
    ring

theorem keys_ne {m : OrdMap Bytes Int64} {a b : List Item} {i : Item}
    (h : ranking m = a ++ i :: b) : (∀ j ∈ a, j.key ≠ i.key) ∧ ∀ j ∈ b, j.key ≠ i.key := by
  have hnodup := ranking_nodup m
  have hmem : i ∈ ranking m := by simp [h]
  rw [h, List.nodup_append] at hnodup
  refine ⟨fun j hj he => ?_, fun j hj he => ?_⟩
  · obtain rfl := key_injective (by simp [h, hj]) hmem he
    exact hnodup.2.2 j hj j (by simp) rfl
  · obtain rfl := key_injective (by simp [h, hj]) hmem he
    exact (List.nodup_cons.mp hnodup.2.1).1 hj

theorem score_min : int64 SSDB_SCORE_MIN = Int64.minValue := by decide

theorem score_max : int64 SSDB_SCORE_MAX = Int64.maxValue := by decide

theorem minKey (k : Bytes) :
    encodeZscoreKey n k SSDB_SCORE_MIN = itemKey n ⟨k, Int64.minValue⟩ := by
  rw [encodeZscoreKey, score_min, itemKey]

theorem maxKey (k : Bytes) :
    encodeZscoreKey n k SSDB_SCORE_MAX = itemKey n ⟨k, Int64.maxValue⟩ := by
  rw [encodeZscoreKey, score_max, itemKey]

def upward (l : List Item) : List Item :=
  l.filter (fun i => ⟨[], Int64.minValue⟩ < i ∧ i ≤ ⟨[255], Int64.maxValue⟩)

def downward (l : List Item) : List Item :=
  (l.filter (fun i => i < ⟨[], Int64.maxValue⟩ ∧ ⟨[], Int64.minValue⟩ ≤ i)).reverse

theorem ziterator_upward (hI : Indexed w.ldb.data Z) (hn : n.length ≤ SSDB_KEY_LEN_MAX)
    (limit : ℕ) : (ziterator w.ldb n [] [] [] limit .forward).rest =
      ((upward (ranking (Z n))).take limit).map entry := by
  simp only [ziterator, if_true, minKey, maxKey]
  exact forward_rest hI hn _ _ limit

theorem ziterator_downward (hI : Indexed w.ldb.data Z) (hn : n.length ≤ SSDB_KEY_LEN_MAX)
    (limit : ℕ) : (ziterator w.ldb n [] [] [] limit .backward).rest =
      ((downward (ranking (Z n))).take limit).map entry := by
  simp only [ziterator, if_true, minKey, maxKey]
  exact backward_rest hI hn _ _ limit

theorem minValue_le (s : Int64) : Int64.minValue ≤ s := by
  rw [Int64.le_iff_toInt_le, Int64.toInt_minValue]
  exact s.le_toInt

theorem le_maxValue (s : Int64) : s ≤ Int64.maxValue := by
  have h := s.toInt_lt
  rw [Int64.le_iff_toInt_le, Int64.toInt_maxValue]
  omega

theorem above_min {i : Item} (h : i.key ≠ []) : (⟨[], Int64.minValue⟩ : Item) < i := by
  rw [Item.lt_iff]
  rcases lt_or_eq_of_le (minValue_le i.score) with hlt | heq
  · exact .inl hlt
  · exact .inr ⟨heq, (Lexicographic.nil_lt_iff _).mpr h⟩

theorem below_max_iff (i : Item) :
    i < (⟨[], Int64.maxValue⟩ : Item) ↔ i.score ≠ Int64.maxValue := by
  rw [Item.lt_iff]
  constructor
  · rintro (h | ⟨-, h⟩)
    · exact h.ne
    · exact absurd (Lexicographic.nil_le i.key) (not_le.mpr h)
  · intro h
    exact .inl (lt_of_le_of_ne (le_maxValue _) h)

theorem upward_all (hl : ∀ i ∈ l, i.key ≠ []) (hmax : ∀ i ∈ l, i.score ≠ Int64.maxValue) :
    upward l = l := by
  refine List.filter_eq_self.mpr fun i hi => decide_eq_true ⟨above_min (hl i hi), ?_⟩
  have hscore : i.score < Int64.maxValue := lt_of_le_of_ne (le_maxValue _) (hmax i hi)
  exact Item.le_iff.mpr (.inl hscore)

theorem downward_all (hl : ∀ i ∈ l, i.key ≠ []) (hmax : ∀ i ∈ l, i.score ≠ Int64.maxValue) :
    downward l = l.reverse := by
  refine congrArg List.reverse (List.filter_eq_self.mpr fun i hi => decide_eq_true ⟨?_, ?_⟩)
  · exact (below_max_iff i).mpr (hmax i hi)
  · exact (above_min (hl i hi)).le

def Mirrors (name : Bytes) (w : SSDBImpl) (l : List Item) : Prop :=
  let n := UInt64.ofNat l.length
  let up := (zrange name 0 n w).1.rest
  let down := (zrrange name 0 n w).1.rest
  down = up.reverse ∧ up.Perm (l.map entry) ∧ down.Perm (l.map entry) ∧
    ∀ i ∈ l, (zrank name i.key w).1 = (l.filter (· < i)).length ∧
      (zrank name i.key w).1 + (zrrank name i.key w).1 = l.length - 1

theorem zrange_all (name : Bytes) (limit : UInt64) :
    (zrange name 0 limit w).1 = ziterator w.ldb name [] [] [] limit.toNat .forward := by
  have h : rangeLimit 0 limit = limit := by simp [rangeLimit]
  simp [zrange, M.bind_apply, M.get_apply, M.pure_apply, h, ZIterator.skip]

theorem zrrange_all (name : Bytes) (limit : UInt64) :
    (zrrange name 0 limit w).1 = ziterator w.ldb name [] [] [] limit.toNat .backward := by
  have h : rangeLimit 0 limit = limit := by simp [rangeLimit]
  simp [zrrange, M.bind_apply, M.get_apply, M.pure_apply, h, ZIterator.skip]

theorem ranking_long (hI : Indexed w.ldb.data Z) (hn : ¬n.length ≤ SSDB_KEY_LEN_MAX) :
    ranking (Z n) = [] :=
  List.eq_nil_iff_forall_not_mem.mpr fun _ hi => hn (ranking_named hI hi).2.2.1

theorem rest_none {it : Iterator} (h : it.limit = 0) : (ZIterator.new it n).rest = [] := by
  rw [ZIterator.rest, ZIterator.new, Iterator.items_collect, Iterator.pending, h, List.take_zero,
    Iterator.collect]

theorem mirrors_nil (name : Bytes) : Mirrors name w [] := by
  have hup : (zrange name 0 0 w).1.rest = [] := by
    rw [zrange_all]
    exact rest_none rfl
  have hdown : (zrrange name 0 0 w).1.rest = [] := by
    rw [zrrange_all]
    exact rest_none rfl
  refine ⟨?_, ?_, ?_, by simp⟩
  · exact hdown.trans (congrArg List.reverse hup).symm
  · exact hup ▸ .nil
  · exact hdown ▸ .nil

section mirror
variable (hI : Indexed w.ldb.data Z) (hn : n.length ≤ SSDB_KEY_LEN_MAX)
  (hb : (ranking (Z n)).length < 2 ^ 31 - 1)
include hI hn hb

theorem range_rest : (zrange n 0 (UInt64.ofNat (ranking (Z n)).length) w).1.rest =
    ((upward (ranking (Z n))).take (ranking (Z n)).length).map entry := by
  have hsize : (ranking (Z n)).length < UInt64.size := by
    rw [UInt64.size]
    omega
  rw [zrange_all, ziterator_upward hI hn, UInt64.toNat_ofNat_of_lt' hsize]

theorem rrange_rest : (zrrange n 0 (UInt64.ofNat (ranking (Z n)).length) w).1.rest =
    ((downward (ranking (Z n))).take (ranking (Z n)).length).map entry := by
  have hsize : (ranking (Z n)).length < UInt64.size := by
    rw [UInt64.size]
    omega
  rw [zrrange_all, ziterator_downward hI hn, UInt64.toNat_ofNat_of_lt' hsize]

theorem ranks {i : Item} (hi : i ∈ ranking (Z n))
    (hmax : ∀ i ∈ ranking (Z n), i.score ≠ Int64.maxValue) :
    (zrank n i.key w).1 = ((ranking (Z n)).filter (· < i)).length ∧
      (zrank n i.key w).1 + (zrrank n i.key w).1 = (ranking (Z n)).length - 1 := by
  have hkeys : ∀ j ∈ ranking (Z n), j.key ≠ [] := fun j hj => (ranking_named hI hj).2.1
  have hrank : (zrank n i.key w).1 = rankIn i.key ((ranking (Z n)).map entry) 0 := by
    change rankIn i.key (ziterator w.ldb n [] [] [] INT_MAX .forward).rest 0 = _
    rw [ziterator_upward hI hn, upward_all hkeys hmax, List.take_of_length_le (by
      rw [INT_MAX]
      omega)]
  have hrrank : (zrrank n i.key w).1 = rankIn i.key ((ranking (Z n)).reverse.map entry) 0 := by
    change rankIn i.key (ziterator w.ldb n [] [] [] INT_MAX .backward).rest 0 = _
    rw [ziterator_downward hI hn, downward_all hkeys hmax, List.take_of_length_le (by
      rw [INT_MAX, List.length_reverse]
      omega)]
  obtain ⟨a, b, hab⟩ := List.append_of_mem hi
  obtain ⟨ha, hb⟩ := keys_ne hab
  have hsorted := ranking_sorted (Z n)
  rw [hab] at hsorted
  have hrev : (a ++ i :: b).reverse = b.reverse ++ i :: a.reverse := by simp
  rw [hrank, hrrank, hab, Ordered.filter_lt_middle hsorted, hrev, rankIn_middle ha,
    rankIn_middle (fun j hj => hb j (List.mem_reverse.mp hj))]
  simp only [List.length_reverse, List.length_append, List.length_cons]
  push_cast
  omega

theorem mirrors_iff :
    Mirrors n w (ranking (Z n)) ↔ ∀ i ∈ ranking (Z n), i.score ≠ Int64.maxValue := by
  have hkeys : ∀ j ∈ ranking (Z n), j.key ≠ [] := fun j hj => (ranking_named hI hj).2.1
  have hup := range_rest hI hn hb
  have hdown := rrange_rest hI hn hb
  constructor
  · rintro ⟨-, -, hperm, -⟩ i hi
    rw [hdown] at hperm
    have hmem := hperm.mem_iff.mpr (List.mem_map_of_mem hi)
    rw [List.mem_map_of_injective entry_injective] at hmem
    have hfilter := List.mem_reverse.mp (List.mem_of_mem_take hmem)
    exact (below_max_iff i).mp (of_decide_eq_true (List.mem_filter.mp hfilter).2).1
  · intro hmax
    rw [upward_all hkeys hmax, List.take_length] at hup
    rw [downward_all hkeys hmax, List.take_of_length_le (by simp)] at hdown
    refine ⟨?_, ?_, ?_, fun i hi => ranks hI hn hb hi hmax⟩
    · rw [hup, hdown, List.map_reverse]
    · rw [hup]
    · rw [hdown, List.map_reverse]
      exact List.reverse_perm _

end mirror

/-- After any run of writes to sorted sets the two directions mirror each other exactly when no
member has the greatest score. -/
theorem directions_mirror_iff (enabled : Bool) (capacity : Int32) (cs : List Call)
    (hcs : ∀ c ∈ cs, c.onZset = true) (name : Bytes) :
    let w := Call.after cs (SSDBImpl.fresh enabled capacity)
    (∃ l, Lists w name l) ∧
      ∀ l, Lists w name l → l.length < 2 ^ 31 - 1 →
        (Mirrors name w l ↔ ∀ i ∈ l, i.score ≠ Int64.maxValue) := by
  intro w
  have hafter : ∃ Z, Holds w Z := after_holds hcs enabled capacity
  obtain ⟨Z, hZ⟩ := hafter
  have hget : w.faults.get = [] := congrArg Faults.get (Call.after_faults cs rfl)
  refine ⟨⟨_, lists_ranking hZ.index hget name⟩, fun l hl hb => ?_⟩
  obtain rfl := lists_unique hZ.index hget hl
  by_cases hn : name.length ≤ SSDB_KEY_LEN_MAX
  · exact mirrors_iff hZ.index hn hb
  · rw [ranking_long hZ.index hn]
    exact iff_of_true (mirrors_nil name) (by simp)

def single (name key score : Bytes) : SSDBImpl :=
  Call.after [.zset name key score BinlogType.SYNC] (SSDBImpl.fresh true 1000)

theorem single_holds (name key score : Bytes) : Holds (single name key score)
    (ScoredSet.set (fun _ => OrdMap.empty) name key (int64 score)) := by
  have h := zset_holds (n := name) (k := key) (t := BinlogType.SYNC) score
    (fresh_holds true 1000) rfl
  exact h.same rfl

theorem lists_single {name key : Bytes} (ha : HashTable.Admitted name key) (score : Bytes) :
    Lists (single name key score) name [⟨key, int64 score⟩] := by
  have hlists := lists_ranking (single_holds name key score).index rfl name
  rw [ScoredSet.set, if_pos ha, assign, Function.update_self] at hlists
  exact hlists

def pair (name key₁ score₁ key₂ score₂ : Bytes) : SSDBImpl :=
  Call.after [.zset name key₁ score₁ BinlogType.SYNC, .zset name key₂ score₂ BinlogType.SYNC]
    (SSDBImpl.fresh true 1000)

theorem lists_pair {name key₁ key₂ : Bytes} (h₁ : HashTable.Admitted name key₁)
    (h₂ : HashTable.Admitted name key₂) (score₁ score₂ : Bytes) :
    Lists (pair name key₁ score₁ key₂ score₂) name
      (ranking ((OrdMap.empty.insert key₁ (int64 score₁)).insert key₂ (int64 score₂))) := by
  have hfaults : (single name key₁ score₁).faults = Faults.none :=
    Call.after_faults [.zset name key₁ score₁ BinlogType.SYNC] rfl
  have hsecond := zset_holds (n := name) (k := key₂) (t := BinlogType.SYNC) score₂
    (single_holds name key₁ score₁) hfaults
  have hZ : Holds (pair name key₁ score₁ key₂ score₂) (ScoredSet.set (ScoredSet.set
      (fun _ => OrdMap.empty) name key₁ (int64 score₁)) name key₂ (int64 score₂)) := hsecond.same rfl
  have hget : (pair name key₁ score₁ key₂ score₂).faults.get = [] := congrArg Faults.get
    (Call.after_faults [.zset name key₁ score₁ BinlogType.SYNC, .zset name key₂ score₂ BinlogType.SYNC] rfl)
  have hlists := lists_ranking hZ.index hget name
  rw [ScoredSet.set, if_pos h₂, assign, Function.update_self, ScoredSet.set, if_pos h₁, assign,
    Function.update_self] at hlists
  exact hlists

theorem lists_pair_ranked :
    Lists (pair [122] [97] [50] [98] [49]) [122] [⟨[98], 1⟩, ⟨[97], 2⟩] := by
  have hlists := @lists_pair [122] [97] [98] (by decide) (by decide) [50] [49]
  have hranking : ranking ((OrdMap.empty.insert [97] (int64 [50])).insert [98] (int64 [49])) =
      [⟨[98], 1⟩, ⟨[97], 2⟩] := by decide
  rwa [hranking] at hlists

theorem directions_mirror_pair :
    Mirrors [122] (pair [122] [97] [50] [98] [49]) [⟨[98], 1⟩, ⟨[97], 2⟩] :=
  ((directions_mirror_iff true 1000 [.zset [122] [97] [50] BinlogType.SYNC,
    .zset [122] [98] [49] BinlogType.SYNC] (by decide) [122]).2 _ lists_pair_ranked (by decide)).mpr (by decide)

theorem greatest_score_missing :
    Lists (single [122] [97] SSDB_SCORE_MAX) [122] [⟨[97], Int64.maxValue⟩] ∧
      ¬Mirrors [122] (single [122] [97] SSDB_SCORE_MAX) [⟨[97], Int64.maxValue⟩] := by
  have hlists : Lists (single [122] [97] SSDB_SCORE_MAX) [122] _ :=
    lists_single (by decide) SSDB_SCORE_MAX
  rw [score_max] at hlists
  have hZ := zset_holds (n := [122]) (k := [97]) (t := BinlogType.SYNC) SSDB_SCORE_MAX
    (fresh_holds true 1000) rfl
  have hI : Indexed (single [122] [97] SSDB_SCORE_MAX).ldb.data _ := (hZ.same rfl).index
  refine ⟨hlists, fun h => ?_⟩
  have hl := lists_unique hI rfl hlists
  rw [hl] at h
  have hall := (mirrors_iff hI (by decide) (by rw [← hl]; decide)).mp h
  rw [← hl] at hall
  exact hall _ (List.mem_singleton_self _) rfl

end ScoredSet
