import Ssdb.Theory.Ranking
import Ssdb.Theory.Shaped

namespace ZIterator

theorem next_item {z : ZIterator} {e : Bytes × Bytes} {es : List (Bytes × Bytes)}
    {a : Bytes × Bytes} (h : z.it.pending = e :: es) (ha : zVerdict e = .item a) :
    ∃ z', z.next = (true, z') ∧ z'.it.pending = es := by
  obtain ⟨h1, h2⟩ := Iterator.nextWith_walk zVerdict (Iterator.pending_length z.it)
  rw [h, Iterator.walk, ha] at h1 h2
  rcases hn : z.it.nextWith zVerdict z.it.fuel with ⟨r, it⟩
  rw [hn] at h1 h2
  simp only at h1 h2
  subst h1
  exact ⟨{ z with it, key := a.1, score := a.2 }, by simp only [next, hn], h2⟩

theorem next_end {z : ZIterator} (h : z.it.pending = []) :
    ∃ z', z.next = (false, z') ∧ z'.it.pending = [] := by
  obtain ⟨h1, h2⟩ := Iterator.nextWith_walk zVerdict (Iterator.pending_length z.it)
  rw [h, Iterator.walk] at h1 h2
  rcases hn : z.it.nextWith zVerdict z.it.fuel with ⟨r, it⟩
  rw [hn] at h1 h2
  simp only at h1 h2
  subst h1
  exact ⟨{ z with it }, by simp only [next, hn], h2⟩

theorem skip_pending (offset : ℕ) {z : ZIterator}
    (hitem : ∀ e ∈ z.it.pending, ∃ a, zVerdict e = .item a) :
    (skip offset z).2.it.pending = z.it.pending.drop offset := by
  induction offset generalizing z with
  | zero => rfl
  | succ offset ih =>
    cases hp : z.it.pending with
    | nil =>
      obtain ⟨z', hnext, hrest⟩ := next_end hp
      simp only [skip, hnext, hrest, List.drop_nil]
    | cons e es =>
      obtain ⟨a, ha⟩ := hitem e (by simp [hp])
      obtain ⟨z', hnext, hrest⟩ := next_item hp ha
      simp only [skip, hnext, List.drop_succ_cons]
      rw [ih (fun e' h' => hitem e' (by simp [hp, ← hrest, h'])), hrest]

end ZIterator

namespace SSDBImpl
open Keys Strings

theorem toNat_add_cases (a b : UInt64) :
    (a + b).toNat = a.toNat + b.toNat ∧ a.toNat + b.toNat < 2 ^ 64 ∨
      (a + b).toNat + 2 ^ 64 = a.toNat + b.toNat := by
  have ha := a.toNat_lt
  have hb := b.toNat_lt
  rw [UInt64.toNat_add]
  omega

theorem rangeLimit_slice {α : Type} (l : List α) (h : l.length < 2 ^ 63) (offset limit : UInt64) :
    (l.take (rangeLimit offset limit).toNat).drop offset.toNat =
      (l.drop offset.toNat).take limit.toNat := by
  have ho := offset.toNat_lt
  rw [rangeLimit]
  rcases toNat_add_cases offset limit with ⟨hsum, -⟩ | hsum
  · split_ifs with hgt
    · rw [hsum, List.drop_take, Nat.add_sub_cancel_left]
    · have hzero : offset.toNat = 0 := by
        rw [gt_iff_lt, UInt64.lt_iff_toNat_lt] at hgt
        omega
      rw [hzero, List.drop_zero, List.drop_zero]
  · have hle : ¬offset + limit > limit := by
      rw [gt_iff_lt, UInt64.lt_iff_toNat_lt]
      omega
    rw [if_neg hle]
    rcases Nat.lt_or_ge offset.toNat l.length with hin | hout
    · rw [List.take_of_length_le (by omega), List.take_of_length_le (by rw [List.length_drop]; omega)]
    · rw [List.drop_eq_nil_of_le hout, List.take_nil]
      exact List.drop_eq_nil_of_le ((List.length_take_le' _ _).trans hout)

end SSDBImpl

namespace ScoredSet
open Keys SSDBImpl

variable {w : SSDBImpl}

def spread (db : LevelDB) (n : Bytes) : Direction → List (Bytes × Bytes)
  | .forward => db.table.entries.filter
      (LevelDB.between (itemKey n (forwardStart [] [])) (itemKey n (forwardStop [])))
  | .backward => (db.table.entries.filter
      (LevelDB.betweenDown (itemKey n (backwardStart [] [])) (itemKey n (backwardStop [])))).reverse

theorem ziterator_pending (db : LevelDB) (n : Bytes) (limit : ℕ) (d : Direction) :
    (ziterator db n [] [] [] limit d).it.pending = (spread db n d).take limit := by
  cases d with
  | forward =>
    rw [ziterator_forward]
    exact LevelDB.iterator_pending db _ _ limit
  | backward =>
    rw [ziterator_backward]
    exact LevelDB.revIterator_pending db _ _ limit

theorem spread_item {db : LevelDB} (ht : Container.Shaped db.table) {n : Bytes} {d : Direction}
    {e : Bytes × Bytes} (he : e ∈ spread db n d) : ∃ a, zVerdict e = .item a := by
  have hbetween : e ∈ db.table.entries ∧ ∃ y, e.1 = scorePrefix n ++ y := by
    cases d with
    | forward =>
      obtain ⟨hmem, hin⟩ := List.mem_filter.mp he
      obtain ⟨hlow, hhigh⟩ := of_decide_eq_true hin
      exact ⟨hmem, within_prefix hlow.le (hhigh.resolve_left (by simp [itemKey, zscoreKey]))⟩
    | backward =>
      obtain ⟨hmem, hin⟩ := List.mem_filter.mp (List.mem_reverse.mp he)
      obtain ⟨hhigh, hlow⟩ := of_decide_eq_true hin
      exact ⟨hmem, within_prefix (hlow.resolve_left (by simp [itemKey, zscoreKey])) hhigh.le⟩
  obtain ⟨hmem, y, hy⟩ := hbetween
  have hhead : e.1.head? = some DataType.ZSCORE := by
    rw [hy]
    rfl
  obtain ⟨-, m, k, s, ha, hkey⟩ := (ht e hmem).zscore hhead
  refine ⟨(k, Strings.str s), ?_⟩
  rw [zVerdict, if_neg (not_not.mpr hhead), hkey, decode_zscore_key k s ha.2.2.1]

theorem collect_items {es : List (Bytes × Bytes)} (h : ∀ e ∈ es, ∃ a, zVerdict e = .item a) :
    ∃ g : Bytes × Bytes → Bytes × Bytes, ∀ es' : List (Bytes × Bytes), es' ⊆ es →
      Iterator.collect zVerdict es' = es'.map g := by
  classical
  refine ⟨fun e => if he : ∃ a, zVerdict e = .item a then he.choose else e, fun es' hsub => ?_⟩
  have hmap := Iterator.collect_map (f := zVerdict) (h := id) (l := es')
    (g := fun e => if he : ∃ a, zVerdict e = .item a then he.choose else e) fun e he => by
      have hex := h e (hsub he)
      rw [dif_pos hex]
      exact hex.choose_spec
  rwa [List.map_id] at hmap

theorem iteration_sliced (ht : Container.Shaped w.ldb.table) (n : Bytes) (d : Direction)
    (offset limit : UInt64)
    (hlen : (ziterator w.ldb n [] [] [] UINT64_MAX.toNat d).rest.length < 2 ^ 63) :
    ((ziterator w.ldb n [] [] [] (rangeLimit offset limit).toNat d).skip offset.toNat).2.rest =
      ((ziterator w.ldb n [] [] [] UINT64_MAX.toNat d).rest.drop offset.toNat).take limit.toNat := by
  have hitem : ∀ e ∈ spread w.ldb n d, ∃ a, zVerdict e = .item a := fun e he => spread_item ht he
  obtain ⟨g, hg⟩ := collect_items hitem
  have htake (m : ℕ) : ∀ e ∈ (spread w.ldb n d).take m, ∃ a, zVerdict e = .item a :=
    fun e he => hitem e (List.mem_of_mem_take he)
  have hwhole : (ziterator w.ldb n [] [] [] UINT64_MAX.toNat d).rest =
      ((spread w.ldb n d).take UINT64_MAX.toNat).map g := by
    rw [ZIterator.rest, Iterator.items_collect, ziterator_pending, hg _ (List.take_subset _ _)]
  have hmax : UINT64_MAX.toNat = 2 ^ 64 - 1 := rfl
  rw [hwhole, List.length_map, List.length_take, hmax] at hlen
  have hshort : (spread w.ldb n d).length < 2 ^ 63 := by omega
  have hall : (spread w.ldb n d).take UINT64_MAX.toNat = spread w.ldb n d :=
    List.take_of_length_le (by rw [hmax]; omega)
  rw [hwhole, hall, ZIterator.rest, Iterator.items_collect,
    ZIterator.skip_pending _ (by rw [ziterator_pending]; exact htake _), ziterator_pending,
    rangeLimit_slice _ hshort, hg, List.map_take, List.map_drop]
  exact fun e he => List.drop_subset _ _ (List.take_subset _ _ he)

/-- In every reachable store the ranges by offset and limit are the parts of the whole ranges. -/
theorem ranges_sliced (hw : Call.Reachable w) (name : Bytes) (offset limit : UInt64) :
    let F := (zrange name 0 UINT64_MAX w).1.rest
    let R := (zrrange name 0 UINT64_MAX w).1.rest
    (F.length < 2 ^ 63 →
        (zrange name offset limit w).1.rest = (F.drop offset.toNat).take limit.toNat) ∧
      (R.length < 2 ^ 63 →
        (zrrange name offset limit w).1.rest = (R.drop offset.toNat).take limit.toNat) := by
  have ht := Container.reachable_shaped hw
  exact ⟨iteration_sliced ht name .forward offset limit,
    iteration_sliced ht name .backward offset limit⟩

theorem ranges_sliced_wrapping :
    let w := (Call.execAll [(.zset [122] [97] [49] 1, .none), (.zset [122] [98] [50] 1, .none)]
      (SSDBImpl.fresh true 1000)).2
    (zrange [122] 1 UINT64_MAX w).1.rest =
      ((zrange [122] 0 UINT64_MAX w).1.rest.drop 1).take UINT64_MAX.toNat :=
  (ranges_sliced ⟨true, 1000, _, rfl⟩ [122] 1 UINT64_MAX).1 (by decide +kernel)

end ScoredSet
