import Ssdb.Theory.ScoreRanges

namespace ScoredSet
open Keys SSDBImpl Strings

variable {w : SSDBImpl} {Z : ScoredSet} {n : Bytes} {l : List Item}

def scanned (keyStart : Bytes) (s e : Int64) (l : List Item) : List Item :=
  l.filter (fun i => ⟨keyStart, s⟩ < i ∧ i.score ≤ e)

def rscanned (keyStart : Bytes) (e s : Int64) (l : List Item) : List Item :=
  (l.filter (fun i => s ≤ i.score ∧
    if keyStart = [] then i.score ≤ e else i < ⟨keyStart, e⟩)).reverse

def lastKey (e : Int64) : Item := ⟨[255], e⟩

theorem textKey (k score : Bytes) : encodeZscoreKey n k score = itemKey n ⟨k, int64 score⟩ := rfl

theorem startScore_given (keyStart : Bytes) {scoreStart : Bytes} (h : scoreStart ≠ []) :
    startScore n keyStart scoreStart w = (scoreStart, w) := by
  simp [startScore, h, M.pure_apply]

theorem zscan_rest (hI : Indexed w.ldb.data Z) (hn : n.length ≤ SSDB_KEY_LEN_MAX)
    {scoreStart scoreEnd : Bytes} (hs : scoreStart ≠ []) (he : scoreEnd ≠ []) (keyStart : Bytes)
    (limit : UInt64) :
    (zscan n keyStart scoreStart scoreEnd limit w).1.rest =
      (((ranking (Z n)).filter (fun i => ⟨keyStart, int64 scoreStart⟩ < i ∧
        i ≤ lastKey (int64 scoreEnd))).take limit.toNat).map entry := by
  simp only [zscan, M.bind_apply, startScore_given keyStart hs, M.get_apply, M.pure_apply,
    ziterator, if_neg hs, if_neg he, textKey]
  exact forward_rest hI hn _ _ _

theorem zrscan_rest (hI : Indexed w.ldb.data Z) (hn : n.length ≤ SSDB_KEY_LEN_MAX)
    {scoreStart scoreEnd : Bytes} (hs : scoreStart ≠ []) (he : scoreEnd ≠ []) (keyStart : Bytes)
    (limit : UInt64) :
    (zrscan n keyStart scoreEnd scoreStart limit w).1.rest =
      (((ranking (Z n)).filter (fun i =>
        i < (if keyStart = [] then lastKey (int64 scoreEnd) else ⟨keyStart, int64 scoreEnd⟩) ∧
          ⟨[], int64 scoreStart⟩ ≤ i)).reverse.take limit.toNat).map entry := by
  simp only [zrscan, M.bind_apply, startScore_given keyStart he, M.get_apply, M.pure_apply,
    ziterator, if_neg hs, if_neg he, textKey]
  split_ifs with hkey
  · exact backward_rest hI hn _ _ _
  · exact backward_rest hI hn _ _ _

theorem score_le {i : Item} {e : Int64} (h : i ≤ lastKey e) : i.score ≤ e := by
  have hscore := Item.score_mono h
  exact hscore

theorem le_lastKey_iff {i : Item} {e : Int64} (h : i.score ≤ e) :
    i ≤ lastKey e ↔ ¬(i.score = e ∧ [255] < i.key) := by
  rw [Item.le_iff, lastKey, not_and, not_lt]
  rcases lt_or_eq_of_le h with hlt | heq
  · simp [hlt, hlt.ne]
  · simp [heq]

theorem lt_lastKey_iff {i : Item} {e : Int64} (h : i.score ≤ e) :
    i < lastKey e ↔ (i.score = e → i.key < [255]) := by
  rw [Item.lt_iff, lastKey]
  rcases lt_or_eq_of_le h with hlt | heq
  · simp [hlt, hlt.ne]
  · simp [heq]

theorem least_le_iff (i : Item) (s : Int64) : (⟨[], s⟩ : Item) ≤ i ↔ s ≤ i.score := by
  rw [Item.le_iff]
  constructor
  · rintro (h | ⟨h, -⟩)
    · exact h.le
    · exact h.le
  · intro h
    rcases lt_or_eq_of_le h with hlt | heq
    · exact .inl hlt
    · exact .inr ⟨heq, Lexicographic.nil_le _⟩

theorem zscan_exact_iff (hI : Indexed w.ldb.data Z) (hn : n.length ≤ SSDB_KEY_LEN_MAX)
    {scoreStart scoreEnd : Bytes} (hs : scoreStart ≠ []) (he : scoreEnd ≠ []) (keyStart : Bytes)
    (limit : UInt64) :
    (zscan n keyStart scoreStart scoreEnd limit w).1.rest =
        ((scanned keyStart (int64 scoreStart) (int64 scoreEnd) (ranking (Z n))).take
          limit.toNat).map entry ↔
      (∀ i ∈ scanned keyStart (int64 scoreStart) (int64 scoreEnd) (ranking (Z n)),
          ¬(i.score = int64 scoreEnd ∧ [255] < i.key)) ∨
        limit.toNat ≤ ((scanned keyStart (int64 scoreStart) (int64 scoreEnd) (ranking (Z n))).filter
          (fun i => ¬(i.score = int64 scoreEnd ∧ [255] < i.key))).length := by
  generalize hS : scanned keyStart (int64 scoreStart) (int64 scoreEnd) (ranking (Z n)) = S
  have hscore : ∀ i ∈ S, i.score ≤ int64 scoreEnd := fun i hi => by
    rw [← hS] at hi
    exact (of_decide_eq_true (List.mem_filter.mp hi).2).2
  have hcode : (ranking (Z n)).filter (fun i => ⟨keyStart, int64 scoreStart⟩ < i ∧
      i ≤ lastKey (int64 scoreEnd)) = S.filter (· ≤ lastKey (int64 scoreEnd)) := by
    rw [← hS, scanned, List.filter_filter]
    refine List.filter_congr fun i _ => ?_
    rw [← Bool.decide_and, decide_eq_decide]
    constructor
    · rintro ⟨h1, h2⟩
      exact ⟨h2, h1, score_le h2⟩
    · rintro ⟨h1, h2, -⟩
      exact ⟨h2, h1⟩
  have hsorted : S.Pairwise (· < ·) := by
    rw [← hS]
    exact (ranking_sorted _).filter _
  have hsplit := Ordered.filter_split (p := fun i => decide (i ≤ lastKey (int64 scoreEnd))) hsorted
    fun x _ y _ hxy hy => decide_eq_true (hxy.le.trans (of_decide_eq_true hy))
  have hsame : S.filter (fun i => ¬(i.score = int64 scoreEnd ∧ [255] < i.key)) =
      S.filter (· ≤ lastKey (int64 scoreEnd)) :=
    List.filter_congr fun i hi => decide_eq_decide.mpr (le_lastKey_iff (hscore i hi)).symm
  rw [zscan_rest hI hn hs he, hcode, (List.map_injective_iff.mpr entry_injective).eq_iff, hsame,
    eq_comm]
  nth_rewrite 1 [hsplit]
  rw [Ordered.take_append_eq_left_iff, List.filter_eq_nil_iff]
  refine or_congr_left (forall₂_congr fun i hi => ?_)
  rw [← le_lastKey_iff (hscore i hi)]
  simp

theorem zrscan_exact_iff (hI : Indexed w.ldb.data Z) (hn : n.length ≤ SSDB_KEY_LEN_MAX)
    {scoreStart scoreEnd : Bytes} (hs : scoreStart ≠ []) (he : scoreEnd ≠ [])
    (hle : int64 scoreStart ≤ int64 scoreEnd) (keyStart : Bytes) (limit : UInt64) :
    (zrscan n keyStart scoreEnd scoreStart limit w).1.rest =
        ((rscanned keyStart (int64 scoreEnd) (int64 scoreStart) (ranking (Z n))).take
          limit.toNat).map entry ↔
      keyStart ≠ [] ∨ limit.toNat = 0 ∨
        ∀ i ∈ ranking (Z n), i.score = int64 scoreEnd → i.key < [255] := by
  rw [zrscan_rest hI hn hs he, (List.map_injective_iff.mpr entry_injective).eq_iff, rscanned]
  by_cases hkey : keyStart = []
  · simp only [hkey, if_true, ne_eq, not_true_eq_false, false_or]
    generalize hS : (ranking (Z n)).filter (fun i => int64 scoreStart ≤ i.score ∧
      i.score ≤ int64 scoreEnd) = S
    have hmem (i : Item) : i ∈ S ↔ i ∈ ranking (Z n) ∧ int64 scoreStart ≤ i.score ∧
        i.score ≤ int64 scoreEnd := by
      rw [← hS, List.mem_filter, decide_eq_true_iff]
    have hcode : (ranking (Z n)).filter (fun i => i < lastKey (int64 scoreEnd) ∧
        ⟨[], int64 scoreStart⟩ ≤ i) = S.filter (· < lastKey (int64 scoreEnd)) := by
      rw [← hS, List.filter_filter]
      refine List.filter_congr fun i _ => ?_
      rw [← Bool.decide_and, decide_eq_decide, least_le_iff]
      constructor
      · rintro ⟨h1, h2⟩
        exact ⟨h1, h2, score_le h1.le⟩
      · rintro ⟨h1, h2, -⟩
        exact ⟨h1, h2⟩
    have hsorted : S.Pairwise (· < ·) := by
      rw [← hS]
      exact (ranking_sorted _).filter _
    have hsplit := Ordered.filter_split (p := fun i => decide (i < lastKey (int64 scoreEnd)))
      hsorted fun x _ y _ hxy hy => decide_eq_true (hxy.trans (of_decide_eq_true hy))
    have hapart : ∀ i ∈ (S.filter (fun i => !decide (i < lastKey (int64 scoreEnd)))).reverse,
        i ∉ (S.filter (· < lastKey (int64 scoreEnd))).reverse := by
      intro i hi hi'
      have h1 := (List.mem_filter.mp (List.mem_reverse.mp hi)).2
      have h2 := (List.mem_filter.mp (List.mem_reverse.mp hi')).2
      simp [h2] at h1
    rw [hcode, eq_comm]
    nth_rewrite 1 [hsplit]
    rw [List.reverse_append, Ordered.take_append_eq_right_iff hapart, List.reverse_eq_nil_iff,
      List.filter_eq_nil_iff, or_comm]
    refine or_congr_right ?_
    constructor
    · intro h i hi hscore
      have hin := h i ((hmem i).mpr ⟨hi, hscore ▸ hle, hscore.le⟩)
      exact (lt_lastKey_iff hscore.le).mp (by simpa using hin) hscore
    · intro h i hi
      obtain ⟨hi, -, hscore⟩ := (hmem i).mp hi
      simpa using (lt_lastKey_iff hscore).mpr (h i hi)
  · refine iff_of_true (congrArg (fun l => List.take _ (List.reverse l)) ?_) (.inl hkey)
    refine List.filter_congr fun i _ => decide_eq_decide.mpr ?_
    rw [if_neg hkey, if_neg hkey, least_le_iff, and_comm]

/-- After any run of writes to sorted sets: when the two scans return exactly their range. -/
theorem range_scans_iff (enabled : Bool) (capacity : Int32) (cs : List Call)
    (hcs : ∀ c ∈ cs, c.onZset = true) (name keyStart scoreStart scoreEnd : Bytes)
    (hn : name.length ≤ SSDB_KEY_LEN_MAX) (hs : scoreStart ≠ []) (he : scoreEnd ≠ [])
    (hle : int64 scoreStart ≤ int64 scoreEnd) (limit : UInt64) :
    let w := Call.after cs (SSDBImpl.fresh enabled capacity)
    let range := scanned keyStart (int64 scoreStart) (int64 scoreEnd)
    let rrange := rscanned keyStart (int64 scoreEnd) (int64 scoreStart)
    (∃ l, Lists w name l) ∧
      ∀ l, Lists w name l →
        ((zscan name keyStart scoreStart scoreEnd limit w).1.rest =
            ((range l).take limit.toNat).map entry ↔
          (∀ i ∈ range l, ¬(i.score = int64 scoreEnd ∧ [255] < i.key)) ∨
            limit.toNat ≤ ((range l).filter
              (fun i => ¬(i.score = int64 scoreEnd ∧ [255] < i.key))).length) ∧
        ((zrscan name keyStart scoreEnd scoreStart limit w).1.rest =
            ((rrange l).take limit.toNat).map entry ↔
          keyStart ≠ [] ∨ limit.toNat = 0 ∨
            ∀ i ∈ l, i.score = int64 scoreEnd → i.key < [255]) := by
  intro w range rrange
  have hafter : ∃ Z, Holds w Z := after_holds hcs enabled capacity
  obtain ⟨Z, hZ⟩ := hafter
  have hget : w.faults.get = [] := congrArg Faults.get (Call.after_faults cs rfl)
  refine ⟨⟨_, lists_ranking hZ.index hget name⟩, fun l hl => ?_⟩
  obtain rfl := lists_unique hZ.index hget hl
  exact ⟨zscan_exact_iff hZ.index hn hs he keyStart limit,
    zrscan_exact_iff hZ.index hn hs he hle keyStart limit⟩

theorem range_scans_pair :
    (zscan [122] [] [48] [50] 10 (pair [122] [97] [50] [98] [49])).1.rest =
      ((scanned [] 0 2 [⟨[98], 1⟩, ⟨[97], 2⟩]).take 10).map entry :=
  ((range_scans_iff true 1000 [.zset [122] [97] [50] BinlogType.SYNC, .zset [122] [98] [49] BinlogType.SYNC]
    (by decide) [122] [] [48] [50] (by decide) (by decide) (by decide) (by decide) 10).2 _
    lists_pair_ranked).1.mpr (by decide)

theorem scans_miss_member :
    Lists (single [122] [255, 97] [49]) [122] [⟨[255, 97], 1⟩] ∧
      (zscan [122] [] [48] [49] 10 (single [122] [255, 97] [49])).1.rest = [] ∧
      (zrscan [122] [] [49] [48] 10 (single [122] [255, 97] [49])).1.rest = [] ∧
      ((scanned [] 0 1 [⟨[255, 97], 1⟩]).take 10).map entry = [([255, 97], [49])] ∧
      ((rscanned [] 1 0 [⟨[255, 97], 1⟩]).take 10).map entry = [([255, 97], [49])] :=
  ⟨lists_single (by decide) [49], by decide, by decide, by decide, by decide⟩

end ScoredSet
