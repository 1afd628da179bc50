import Ssdb.Library.Paging
import Ssdb.Theory.HashClear
import Ssdb.Theory.Ranking
import Ssdb.Theory.Shaped

namespace HashTable
open Keys SSDBImpl LevelDB

variable {H : HashTable} {n : Bytes}

def upFields (H : HashTable) (n stop start : Bytes) : List (Bytes × Bytes) :=
  (H n).entries.filter (between start stop)

def downFields (H : HashTable) (n stop start : Bytes) : List (Bytes × Bytes) :=
  (H n).entries.reverse.filter (betweenDown (if start = [] then [255] else start) stop)

theorem upFields_continues (H : HashTable) (n stop : Bytes) :
    Paging.Continues (H.upFields n stop) Prod.fst where
  after {start xs ys a} h := by
    have ha : start < a.1 ∧ (stop = [] ∨ a.1 ≤ stop) := by
      have hmem : a ∈ H.upFields n stop start := by simp [h]
      exact of_decide_eq_true (List.mem_filter.mp hmem).2
    refine Paging.filter_after (r := fun x y => x.1 < y.1) (fun x y h1 h2 => lt_asymm h1 h2)
      (H n).sorted (fun x _ => ?_) h
    simp only [between, decide_eq_true_eq]
    constructor
    · rintro ⟨hlow, hhigh⟩
      exact ⟨⟨ha.1.trans hlow, hhigh⟩, hlow⟩
    · rintro ⟨⟨-, hhigh⟩, hlow⟩
      exact ⟨hlow, hhigh⟩

theorem downFields_continues {d : Bytes → Option Bytes} (hF : Fields d H) (n stop : Bytes) :
    Paging.Continues (H.downFields n stop) Prod.fst where
  after {start xs ys a} h := by
    have hmem : a ∈ H.downFields n stop start := by simp [h]
    have hkey : a.1 ≠ [] :=
      fields_nonempty hF (List.mem_reverse.mp (List.mem_filter.mp hmem).1)
    have ha : a.1 < (if start = [] then [255] else start) ∧ (stop = [] ∨ stop ≤ a.1) :=
      of_decide_eq_true (List.mem_filter.mp hmem).2
    refine Paging.filter_after (r := fun x y => y.1 < x.1) (fun x y h1 h2 => lt_asymm h1 h2)
      (List.pairwise_reverse.mpr (H n).sorted) (fun x _ => ?_) h
    simp only [betweenDown, decide_eq_true_eq, if_neg hkey]
    constructor
    · rintro ⟨hhigh, hlow⟩
      exact ⟨⟨hhigh.trans ha.1, hlow⟩, hhigh⟩
    · rintro ⟨⟨-, hlow⟩, hhigh⟩
      exact ⟨hhigh, hlow⟩

theorem hscan_upFields {w : SSDBImpl} (hF : Fields w.ldb.data H) (start stop : Bytes)
    (limit : UInt64) :
    (hscan n start stop limit w).1.rest = (H.upFields n stop start).take limit.toNat :=
  hscan_fields hF n start stop limit

theorem hrscan_downFields {w : SSDBImpl} (hF : Fields w.ldb.data H) (start stop : Bytes)
    (limit : UInt64) :
    (hrscan n start stop limit w).1.rest = (H.downFields n stop start).take limit.toNat := by
  rw [hrscan_fields hF, downFields, List.filter_reverse]

theorem upFields_length {db : LevelDB} (hF : Fields db.data H) (start stop : Bytes) :
    (H.upFields n stop start).length ≤ db.table.size :=
  (List.length_filter_le _ _).trans (size_le_table hF n)

theorem downFields_length {db : LevelDB} (hF : Fields db.data H) (start stop : Bytes) :
    (H.downFields n stop start).length ≤ db.table.size := by
  refine (List.length_filter_le _ _).trans ?_
  rw [List.length_reverse]
  exact size_le_table hF n

end HashTable

namespace ScoredSet
open Keys SSDBImpl Strings

variable {w : SSDBImpl} {n : Bytes} {l : List Item}

theorem itemBytes_lt (i j : Item) : itemBytes i < itemBytes j ↔ i < j := by
  rw [← itemKey_lt [], itemKey_eq, itemKey_eq, Lexicographic.append_lt_append_iff]

theorem itemBytes_le (i j : Item) : itemBytes i ≤ itemBytes j ↔ i ≤ j := by
  rw [← not_lt, ← not_lt, itemBytes_lt]

structure Stored (db : LevelDB) (n : Bytes) (l : List Item) : Prop where
  sorted : l.Pairwise (· < ·)
  keys : ∀ i ∈ l, i.key ≠ []
  entries : (db.region (scorePrefix n)).entries = l.map fun i => (itemBytes i, [])

theorem exists_items {es : List (Bytes × Bytes)}
    (h : ∀ e ∈ es, ∃ i : Item, i.key ≠ [] ∧ e = (itemBytes i, [])) :
    ∃ l : List Item, (∀ i ∈ l, i.key ≠ []) ∧ es = l.map fun i => (itemBytes i, []) := by
  induction es with
  | nil => exact ⟨[], by simp, rfl⟩
  | cons e es ih =>
    obtain ⟨i, hi, rfl⟩ := h e (by simp)
    obtain ⟨l, hl, rfl⟩ := ih fun e' h' => h e' (by simp [h'])
    exact ⟨i :: l, by simpa [hi] using hl, rfl⟩

theorem exists_stored {db : LevelDB} (h : Container.Shaped db.table)
    (hn : n.length ≤ SSDB_KEY_LEN_MAX) : ∃ l, Stored db n l := by
  have hitem : ∀ e ∈ (db.region (scorePrefix n)).entries,
      ∃ i : Item, i.key ≠ [] ∧ e = (itemBytes i, []) := by
    intro e he
    obtain ⟨key, v⟩ := e
    have hget : db.table.get (scorePrefix n ++ key) = some v := LevelDB.mem_region.mp he
    obtain ⟨hv, m, k, s, ha, hkey⟩ := (Container.shaped_get h hget).zscore rfl
    have hsame : scorePrefix m ++ itemBytes ⟨k, s⟩ = scorePrefix n ++ key := hkey.symm
    obtain rfl := named_prefix hn ha.2.2.1 hsame
    exact ⟨⟨k, s⟩, ha.2.1, Prod.ext (List.append_cancel_left hsame).symm hv⟩
  obtain ⟨l, hl, hentries⟩ := exists_items hitem
  refine ⟨l, ?_, hl, hentries⟩
  have hsorted := (db.region (scorePrefix n)).sorted
  rw [hentries, List.pairwise_map] at hsorted
  exact hsorted.imp fun h => (itemBytes_lt _ _).mp h

namespace Stored

theorem forward (h : Stored w.ldb n l) (hn : n.length ≤ SSDB_KEY_LEN_MAX) (a b : Item)
    (limit : ℕ) :
    (ZIterator.new (w.ldb.iterator (itemKey n a) (itemKey n b) limit) n).rest =
      ((l.filter (fun i => a < i ∧ i ≤ b)).map entry).take limit := by
  rw [← List.map_take]
  refine rest_items hn ?_
  have hpending := LevelDB.forward_pending w.ldb (scorePrefix n) (itemBytes a)
    (itemBytes b) (List.cons_ne_nil _ _) limit
  have hfilter : (fun e : Bytes × Bytes => decide (itemBytes a < e.1 ∧ e.1 ≤ itemBytes b)) ∘
      (fun i => (itemBytes i, [])) = fun i => decide (a < i ∧ i ≤ b) := by
    funext i
    simp only [Function.comp_apply, itemBytes_lt, itemBytes_le]
  rw [h.entries, List.filter_map, hfilter, ← List.map_take, List.map_map] at hpending
  exact hpending

theorem backward (h : Stored w.ldb n l) (hn : n.length ≤ SSDB_KEY_LEN_MAX) (a b : Item)
    (limit : ℕ) :
    (ZIterator.new (w.ldb.revIterator (itemKey n a) (itemKey n b) limit) n).rest =
      ((l.reverse.filter (fun i => i < a ∧ b ≤ i)).map entry).take limit := by
  rw [← List.map_take]
  refine rest_items hn ?_
  have hpending := LevelDB.backward_pending w.ldb (scorePrefix n) (itemBytes a)
    (itemBytes b) (List.cons_ne_nil _ _) limit
  have hfilter : (fun e : Bytes × Bytes => decide (e.1 < itemBytes a ∧ itemBytes b ≤ e.1)) ∘
      (fun i => (itemBytes i, [])) = fun i => decide (i < a ∧ b ≤ i) := by
    funext i
    simp only [Function.comp_apply, itemBytes_lt, itemBytes_le]
  rw [h.entries, List.filter_map, hfilter, ← List.map_reverse, ← List.map_take, List.map_map,
    ← List.filter_reverse] at hpending
  exact hpending

end Stored

def scoreFrom (w : SSDBImpl) (n k s : Bytes) : Bytes := (startScore n k s w).1

theorem scoreFrom_entry {i : Item} (w : SSDBImpl) (n : Bytes) :
    scoreFrom w n (entry i).1 (entry i).2 = str i.score := by
  simp [scoreFrom, startScore, entry, str_ne_nil, M.pure_apply]

theorem forwardStart_entry (i : Item) : forwardStart i.key (str i.score) = i := by
  simp [forwardStart, str_ne_nil]

theorem backwardStart_entry {i : Item} (h : i.key ≠ []) : backwardStart i.key (str i.score) = i := by
  simp [backwardStart, str_ne_nil, h]

def upItems (w : SSDBImpl) (n e : Bytes) (l : List Item) (s : Bytes × Bytes) :
    List (Bytes × Bytes) :=
  (l.filter (fun i => forwardStart s.1 (scoreFrom w n s.1 s.2) < i ∧ i ≤ forwardStop e)).map entry

def downItems (w : SSDBImpl) (n e : Bytes) (l : List Item) (s : Bytes × Bytes) :
    List (Bytes × Bytes) :=
  (l.reverse.filter (fun i => i < backwardStart s.1 (scoreFrom w n s.1 s.2) ∧
    backwardStop e ≤ i)).map entry

theorem map_split {L : List Item} {xs ys : List (Bytes × Bytes)} {a : Bytes × Bytes}
    (h : L.map entry = xs ++ a :: ys) :
    ∃ xs' i ys', L = xs' ++ i :: ys' ∧ entry i = a ∧ ys'.map entry = ys := by
  obtain ⟨xs', rest, rfl, -, hrest⟩ := List.map_eq_append_iff.mp h
  obtain ⟨i, ys', rfl, hi, hys⟩ := List.map_eq_cons_iff.mp hrest
  exact ⟨xs', i, ys', rfl, hi, hys⟩

theorem upItems_continues (h : Stored w.ldb n l) (e : Bytes) :
    Paging.Continues (upItems w n e l) id where
  after {s xs ys a} hsplit := by
    obtain ⟨xs', i, ys', hitems, rfl, rfl⟩ := map_split hsplit
    have hi : forwardStart s.1 (scoreFrom w n s.1 s.2) < i ∧ i ≤ forwardStop e := by
      have hmem : i ∈ xs' ++ i :: ys' := by simp
      rw [← hitems] at hmem
      exact of_decide_eq_true (List.mem_filter.mp hmem).2
    refine congrArg (List.map entry) (Paging.filter_after (r := (· < ·))
      (fun x y h1 h2 => lt_asymm h1 h2) h.sorted (fun x _ => ?_) hitems)
    rw [id, scoreFrom_entry, entry, forwardStart_entry]
    simp only [decide_eq_true_eq]
    constructor
    · rintro ⟨hlow, hhigh⟩
      exact ⟨⟨hi.1.trans hlow, hhigh⟩, hlow⟩
    · rintro ⟨⟨-, hhigh⟩, hlow⟩
      exact ⟨hlow, hhigh⟩

theorem downItems_continues (h : Stored w.ldb n l) (e : Bytes) :
    Paging.Continues (downItems w n e l) id where
  after {s xs ys a} hsplit := by
    obtain ⟨xs', i, ys', hitems, rfl, rfl⟩ := map_split hsplit
    have hmem : i ∈ xs' ++ i :: ys' := by simp
    rw [← hitems] at hmem
    have hkey : i.key ≠ [] := h.keys i (List.mem_reverse.mp (List.mem_filter.mp hmem).1)
    have hi : i < backwardStart s.1 (scoreFrom w n s.1 s.2) ∧ backwardStop e ≤ i :=
      of_decide_eq_true (List.mem_filter.mp hmem).2
    refine congrArg (List.map entry) (Paging.filter_after (r := fun x y => y < x)
      (fun x y h1 h2 => lt_asymm h1 h2) (List.pairwise_reverse.mpr h.sorted) (fun x _ => ?_) hitems)
    rw [id, scoreFrom_entry, entry, backwardStart_entry hkey]
    simp only [decide_eq_true_eq]
    constructor
    · rintro ⟨hhigh, hlow⟩
      exact ⟨⟨hhigh.trans hi.1, hlow⟩, hhigh⟩
    · rintro ⟨⟨-, hlow⟩, hhigh⟩
      exact ⟨hhigh, hlow⟩

theorem startScore_apply (hget : w.faults.get = []) (k s : Bytes) :
    startScore n k s w = (scoreFrom w n k s, w) := by
  rw [scoreFrom, startScore]
  split_ifs
  · rw [M.bind_apply, zget, getRecord_apply _ hget]
    rfl
  · rfl

theorem zscan_upItems (h : Stored w.ldb n l) (hn : n.length ≤ SSDB_KEY_LEN_MAX)
    (hget : w.faults.get = []) (s : Bytes × Bytes) (e : Bytes) (limit : UInt64) :
    (zscan n s.1 s.2 e limit w).1.rest = (upItems w n e l s).take limit.toNat := by
  rw [zscan, M.bind_apply, startScore_apply hget]
  simp only [M.bind_apply, M.get_apply, M.pure_apply, ziterator_forward]
  exact h.forward hn _ _ _

theorem zrscan_downItems (h : Stored w.ldb n l) (hn : n.length ≤ SSDB_KEY_LEN_MAX)
    (hget : w.faults.get = []) (s : Bytes × Bytes) (e : Bytes) (limit : UInt64) :
    (zrscan n s.1 s.2 e limit w).1.rest = (downItems w n e l s).take limit.toNat := by
  rw [zrscan, M.bind_apply, startScore_apply hget]
  simp only [M.bind_apply, M.get_apply, M.pure_apply, ziterator_backward]
  exact h.backward hn _ _ _

theorem Stored.length_le {db : LevelDB} (h : Stored db n l) : l.length ≤ db.table.size := by
  have hsize := OrdMap.size_under (scorePrefix n) db.table
  have hlen := congrArg List.length h.entries
  rw [List.length_map] at hlen
  exact hlen ▸ hsize

theorem upItems_length (h : Stored w.ldb n l) (e : Bytes) (s : Bytes × Bytes) :
    (upItems w n e l s).length ≤ w.ldb.table.size := by
  rw [upItems, List.length_map]
  exact (List.length_filter_le _ _).trans h.length_le

theorem downItems_length (h : Stored w.ldb n l) (e : Bytes) (s : Bytes × Bytes) :
    (downItems w n e l s).length ≤ w.ldb.table.size := by
  rw [downItems, List.length_map]
  refine (List.length_filter_le _ _).trans ?_
  rw [List.length_reverse]
  exact h.length_le

end ScoredSet

namespace SSDBImpl
open Keys

/-- Whatever ran before: pages of any size, each asked for from the last entry of the one before,
come to an end and together are what one scan without a limit returns. -/
theorem pages_join {w : SSDBImpl} (hw : Call.Reachable w) {name : Bytes}
    (hn : name.length ≤ SSDB_KEY_LEN_MAX) (stop : Bytes) {L limit : UInt64} (hL : L ≠ 0)
    (hlimit : w.ldb.table.size ≤ limit.toNat) :
    (∀ start, Paging.Joins (fun s => (hscan name s stop L w).1.rest) Prod.fst start
        (hscan name start stop limit w).1.rest) ∧
      (∀ start, Paging.Joins (fun s => (hrscan name s stop L w).1.rest) Prod.fst start
        (hrscan name start stop limit w).1.rest) ∧
      (∀ start : Bytes × Bytes, Paging.Joins (fun s => (zscan name s.1 s.2 stop L w).1.rest) id start
        (zscan name start.1 start.2 stop limit w).1.rest) ∧
      ∀ start : Bytes × Bytes, Paging.Joins (fun s => (zrscan name s.1 s.2 stop L w).1.rest) id start
        (zrscan name start.1 start.2 stop limit w).1.rest := by
  obtain ⟨H, hF⟩ := Call.reachable_wellFormed hw
  obtain ⟨l, hl⟩ := ScoredSet.exists_stored (Container.reachable_shaped hw) hn
  have hget : w.faults.get = [] := by
    obtain ⟨enabled, capacity, cs, rfl⟩ := hw
    exact congrArg Faults.get (Call.execAll_faults cs rfl)
  have hpos : 0 < L.toNat := Nat.pos_of_ne_zero fun h0 => hL (UInt64.toNat_inj.mp h0)
  refine ⟨fun start => ?_, fun start => ?_, fun start => ?_, fun start => ?_⟩
  · rw [HashTable.hscan_upFields hF]
    simp only [HashTable.hscan_upFields hF]
    exact Paging.joins (H.upFields_continues name stop) hpos
      ((HashTable.upFields_length hF start stop).trans hlimit)
  · rw [HashTable.hrscan_downFields hF]
    simp only [HashTable.hrscan_downFields hF]
    exact Paging.joins (HashTable.downFields_continues hF name stop) hpos
      ((HashTable.downFields_length hF start stop).trans hlimit)
  · rw [ScoredSet.zscan_upItems hl hn hget]
    simp only [ScoredSet.zscan_upItems hl hn hget]
    exact Paging.joins (ScoredSet.upItems_continues hl stop) hpos
      ((ScoredSet.upItems_length hl stop start).trans hlimit)
  · rw [ScoredSet.zrscan_downItems hl hn hget]
    simp only [ScoredSet.zrscan_downItems hl hn hget]
    exact Paging.joins (ScoredSet.downItems_continues hl stop) hpos
      ((ScoredSet.downItems_length hl stop start).trans hlimit)

theorem pages_join_two_fields :
    let w := (Call.execAll [(.hset [104] [97] [49] 1, .none), (.hset [104] [98] [50] 1, .none)]
      (fresh true 1000)).2
    ∀ start, Paging.Joins (fun s => (hscan [104] s [] 1 w).1.rest) Prod.fst start
      (hscan [104] start [] 10 w).1.rest :=
  (pages_join ⟨true, 1000, _, rfl⟩ (by decide) []
    (by decide : (1 : UInt64) ≠ 0) (by decide)).1

end SSDBImpl
